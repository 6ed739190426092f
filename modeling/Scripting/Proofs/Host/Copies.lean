import Mathlib.Logic.Relation
import Mathlib.Tactic.Common
import Scripting.Proofs.Eval.Change
import Scripting.Proofs.Host.Tables
import Scripting.Proofs.Host.ValueSemantics
import Scripting.Proofs.Store.Copies

/-! Copies that a host makes: they mean the same as the original, share nothing with it nor within
themselves, and are registered object by object. What is done to the one is not seen in the
other. -/
namespace Scripting

open Relation

namespace Store

variable {s t : Store} {o root other : ObjectId} {q : Nat}

/-! ### Positions -/

theorem exists_follow (h : ReflTransGen s.Contains o q) : ∃ is, s.follow o is = some q := by
  induction h with
  | refl => exact ⟨[], rfl⟩
  | tail _ hstep ih =>
    obtain ⟨is, his⟩ := ih
    obtain ⟨i, hi⟩ := Array.mem_iff_getElem?.mp hstep
    exact ⟨is ++ [i], by simp [follow_append, his, follow, hi]⟩

theorem follow_of_cons {i : Nat} {is : List Nat} (h : s.follow o (i :: is) = some q) :
    ∃ e, (s.value o).elements[i]? = some e ∧ s.follow e is = some q := Option.bind_eq_some_iff.mp h

mutual

/-- The positions of a tree that is laid out have numbers of its own. -/
theorem Laid.bounds {first : Nat} {is : List Nat} : (x : Tree) → s.Laid x first →
    s.follow (first + x.nodes - 1) is = some q →
    first ≤ q ∧ q < first + x.nodes ∧ (q = first + x.nodes - 1 → is = [])
  | .atom a, h, hq => by
    cases is with
    | nil =>
      cases hq
      simp [Tree.nodes]
    | cons i is =>
      obtain ⟨e, he, -⟩ := follow_of_cons hq
      simp only [Tree.nodes, Nat.add_sub_cancel, show s.value first = _ from h] at he
      simp [Value.elements] at he
  | .tuple ts, ⟨es, hv, hall⟩, hq | .vector ts, ⟨es, hv, hall⟩, hq => by
    cases is with
    | nil =>
      cases hq
      simp only [Tree.nodes]
      exact ⟨by omega, by omega, fun _ => trivial⟩
    | cons i is =>
      obtain ⟨e, he, hq⟩ := follow_of_cons hq
      rw [show first + _ - 1 = first + Tree.nodesOf ts from rfl, hv] at he
      obtain ⟨hle, hlt⟩ := LaidAll.bounds ts hall (by simpa [Value.elements] using he) hq
      simp only [Tree.nodes]
      omega

theorem LaidAll.bounds {first : Nat} {is : List Nat} {es : List ObjectId} {i : Nat} {e : ObjectId} :
    (ts : List Tree) → s.LaidAll ts first es → es[i]? = some e → s.follow e is = some q →
    first ≤ q ∧ q < first + Tree.nodesOf ts
  | [], h, he, _ => by simp [show es = [] from h] at he
  | y :: ts, ⟨rest, hes, hy, hall⟩, he, hq => by
    rw [Tree.nodesOf]
    cases i with
    | zero =>
      rw [hes] at he
      cases he
      obtain ⟨hle, hlt, -⟩ := Laid.bounds y hy hq
      omega
    | succ i =>
      obtain ⟨hle, hlt⟩ := LaidAll.bounds ts hall (by simpa [hes] using he) hq
      omega

end

mutual

/-- No two positions of a tree that is laid out share an object. -/
theorem Laid.follow_unique {first : Nat} {is js : List Nat} : (x : Tree) → s.Laid x first →
    s.follow (first + x.nodes - 1) is = some q →
      s.follow (first + x.nodes - 1) js = some q → is = js
  | .atom a, h, hq, hq' => by
    obtain ⟨hle, hlt, hnil⟩ := Laid.bounds (.atom a) h hq
    obtain ⟨-, -, hnil'⟩ := Laid.bounds (.atom a) h hq'
    simp only [Tree.nodes] at hlt hnil hnil'
    rw [hnil (by omega), hnil' (by omega)]
  | .tuple ts, h, hq, hq' | .vector ts, h, hq, hq' => by
    have hnil := (Laid.bounds _ h hq).2.2
    have hnil' := (Laid.bounds _ h hq').2.2
    obtain ⟨es, hv, hall⟩ := h
    rw [show first + _ - 1 = first + Tree.nodesOf ts from rfl] at hq hq' hnil hnil'
    cases is with
    | nil => exact (hnil' (Option.some.inj hq).symm).symm
    | cons i is =>
      cases js with
      | nil => exact hnil (Option.some.inj hq').symm
      | cons j js =>
        obtain ⟨e, he, hq⟩ := follow_of_cons hq
        obtain ⟨f, hf, hq'⟩ := follow_of_cons hq'
        rw [hv] at he hf
        obtain ⟨rfl, rfl⟩ := LaidAll.follow_unique ts hall (by simpa [Value.elements] using he)
          (by simpa [Value.elements] using hf) hq hq'
        rfl

theorem LaidAll.follow_unique {first : Nat} {is js : List Nat} {es : List ObjectId} {i j : Nat}
    {e f : ObjectId} :
    (ts : List Tree) → s.LaidAll ts first es → es[i]? = some e → es[j]? = some f →
    s.follow e is = some q → s.follow f js = some q → i = j ∧ is = js
  | [], h, he, _, _, _ => by simp [show es = [] from h] at he
  | y :: ts, ⟨rest, hes, hy, hall⟩, he, hf, hq, hq' => by
    subst hes
    cases i with
    | zero =>
      cases he
      obtain ⟨-, hlt, -⟩ := Laid.bounds y hy hq
      cases j with
      | zero =>
        cases hf
        exact ⟨rfl, Laid.follow_unique y hy hq hq'⟩
      | succ j =>
        obtain ⟨hle, -⟩ := LaidAll.bounds ts hall (by simpa using hf) hq'
        omega
    | succ i =>
      cases j with
      | zero =>
        cases hf
        obtain ⟨-, hlt, -⟩ := Laid.bounds y hy hq'
        obtain ⟨hle, -⟩ := LaidAll.bounds ts hall (by simpa using he) hq
        omega
      | succ j =>
        obtain ⟨rfl, rfl⟩ :=
          LaidAll.follow_unique ts hall (by simpa using he) (by simpa using hf) hq hq'
        exact ⟨rfl, rfl⟩

end

/-! ### Separation -/

/-- Since the first store nothing inside the second object has changed, and there is no way to any
of it from the first object. -/
structure Spares (s : Store) (root other : ObjectId) (t : Store) : Prop where
  made : ∀ q, ReflTransGen s.Contains other q → q < s.next
  next : s.next ≤ t.next
  value : ∀ q, ReflTransGen s.Contains other q → t.value q = s.value q
  apart : ∀ q, ReflTransGen t.Contains root q → ¬ ReflTransGen s.Contains other q

namespace Spares

variable {u : Store} {x : Tree}

theorem start (hmade : ∀ q, ReflTransGen s.Contains other q → q < s.next)
    (hapart : ∀ q, ReflTransGen s.Contains root q → ¬ ReflTransGen s.Contains other q) :
    s.Spares root other s := ⟨hmade, Nat.le_refl _, fun _ _ => rfl, hapart⟩

theorem tree? (h : s.Spares root other t) (hx : s.tree? other = some x) : t.tree? other = some x :=
  tree?_of_kept h.next h.value hx

/-- What was inside the second object still is. -/
theorem inside (h : s.Spares root other t) (hq : ReflTransGen s.Contains other q) :
    ReflTransGen t.Contains other q := by
  induction hq with
  | refl => exact .refl
  | @tail b c hb hstep ih =>
    refine .tail ih ?_
    rwa [Contains, h.value b hb]

/-- New objects have only new objects inside. -/
theorem adds (h : s.Spares root other t) (hadds : t.Adds u)
    (hsame : ∀ q, q < t.next → u.value q = t.value q) : s.Spares root other u where
  made := h.made
  next := Nat.le_trans h.next hadds.next
  value := fun q hq => (hsame q (Nat.lt_of_lt_of_le (h.made q hq) h.next)).trans (h.value q hq)
  apart := by
    intro q hq hother
    have hpath : ReflTransGen t.Contains root q ∨ t.next ≤ q := by
      clear hother
      induction hq with
      | refl => exact .inl .refl
      | @tail b c _ hstep ih =>
        by_cases hb : b < t.next
        · rw [Contains, hsame b hb] at hstep
          rcases ih with ih | ih
          · exact .inl (.tail ih hstep)
          · exact absurd hb (Nat.not_lt.mpr ih)
        · exact .inr (hadds.new (Nat.le_of_not_lt hb) hstep)
    rcases hpath with hold | hnew
    · exact h.apart q hold hother
    · exact absurd (h.made q hother) (Nat.not_lt.mpr (Nat.le_trans h.next hnew))

/-- A vector inside the first object gets elements that have nothing of the second one. -/
theorem setVector {v : ObjectId} {es fs : Array ObjectId} (h : s.Spares root other t)
    (hv : ReflTransGen t.Contains root v) (hes : t.value v = .vector es) (hfs : ∀ e ∈ fs, e ∈ es ∨
      ∀ q, ReflTransGen t.Contains e q → ¬ ReflTransGen s.Contains other q) :
    s.Spares root other (t.setValue v (.vector fs)) where
  made := h.made
  next := by
    rw [next_setValue]
    exact h.next
  value := by
    intro q hq
    rw [value_setValue, if_neg]
    · exact h.value q hq
    · rintro ⟨rfl, -⟩
      exact h.apart q hv hq
  apart := by
    intro q hq hother
    have hpath : ReflTransGen t.Contains root q ∨
        ∃ e, ReflTransGen t.Contains e q ∧
          ∀ q, ReflTransGen t.Contains e q → ¬ ReflTransGen s.Contains other q := by
      clear hother
      induction hq with
      | refl => exact .inl .refl
      | @tail b c _ hstep ih =>
        rw [Contains, value_setValue] at hstep
        split at hstep
        · next hb =>
          rcases hfs c hstep with hold | hnew
          · rw [hb.1] at ih
            have hin : t.Contains v c := by simpa [Contains, hes, Value.elements] using hold
            exact ih.imp (.tail · hin) (Exists.imp fun e he => ⟨.tail he.1 hin, he.2⟩)
          · exact .inr ⟨c, .refl, hnew⟩
        · exact ih.imp (.tail · hstep) (Exists.imp fun e he => ⟨.tail he.1 hstep, he.2⟩)
    rcases hpath with hold | ⟨e, he, hfree⟩
    · exact h.apart q hold hother
    · exact hfree q he hother

end Spares
end Store

open Store

/-! ### Edits -/

/-- One change of what is inside an object: a copy is assigned to an element, an object that has
nothing of a second object is put there as it is, or copies are appended. It may also fail. -/
inductive Edit (root other : ObjectId) : State → State → Prop
  | assign {s : State} {v e : ObjectId} {i : Nat} {span : Option Span}
      (hv : ReflTransGen s.heap.store.Contains root v) :
      Edit root other s
        (Eval.after (do Eval.store (.element v i) (← Eval.copy e) span) s)
  | store {s : State} {v e : ObjectId} {i : Nat} {span : Option Span}
      (hv : ReflTransGen s.heap.store.Contains root v)
      (he : ∀ q, ReflTransGen s.heap.store.Contains e q →
        ¬ ReflTransGen s.heap.store.Contains other q) :
      Edit root other s ((Eval.store (.element v i) e span).after s)
  | append {s : State} {v : ObjectId} {items : List ObjectId} {span : Option Span}
      (hv : ReflTransGen s.heap.store.Contains root v) :
      Edit root other s ((Eval.append (v :: items) span).after s)

/-- Any number of edits. -/
abbrev Edits (root other : ObjectId) : State → State → Prop := ReflTransGen (Edit root other)

namespace Eval

variable {s : State} {o : ObjectId} {os : List ObjectId}

/-- A copy is a tree built anew, unless there is no tree and then nothing. -/
theorem copy_cases : (∃ x, s.heap.store.tree? o = some x ∧
      Eval.copy o s = .ok (s.heap.build x).1 (s.withHeap (s.heap.build x).2)) ∨
    Eval.copy o s = .error .exhausted s := by
  simp only [Eval.copy, Bind.bind, EStateM.bind, Eval.treeOf]
  cases s.heap.store.tree? o with
  | none => exact .inr rfl
  | some x => exact .inl ⟨x, rfl, rfl⟩

/-- Objects have trees all together, or copying them does not end. -/
theorem treesOf_cases (os : List ObjectId) (s : State) :
    (∃ xs, List.Forall₂ (fun o x => s.heap.store.tree? o = some x) os xs ∧
      Eval.treesOf os s = .ok xs s) ∨ Eval.treesOf os s = .error .exhausted s := by
  induction os with
  | nil => exact .inl ⟨[], .nil, rfl⟩
  | cons o os ih =>
    simp only [Eval.treesOf, Bind.bind, EStateM.bind, Eval.treeOf]
    cases ho : s.heap.store.tree? o with
    | none => exact .inr rfl
    | some x =>
      rcases ih with ⟨xs, htrees, hxs⟩ | hnone
      · exact .inl ⟨x :: xs, .cons ho htrees, by simp only [hxs]; rfl⟩
      · exact .inr (by simp only [hnone])

theorem copyAll_cases (os : List ObjectId) (s : State) :
    (∃ xs, List.Forall₂ (fun o x => s.heap.store.tree? o = some x) os xs ∧ Eval.copyAll os s =
      .ok (s.heap.buildAll #[] xs).1 (s.withHeap (s.heap.buildAll #[] xs).2)) ∨
    Eval.copyAll os s = .error .exhausted s := by
  simp only [Eval.copyAll, Bind.bind, EStateM.bind]
  rcases treesOf_cases os s with ⟨xs, htrees, hxs⟩ | hnone
  · exact .inl ⟨xs, htrees, by simp only [hxs]; rfl⟩
  · exact .inr (by simp only [hnone])

theorem after_bind_ok {α β : Type} {x : Eval α} {f : α → Eval β} {a : α} {t : State}
    (h : x s = .ok a t) :
    (x >>= f).after s = (f a).after t := by simp only [after, Bind.bind, EStateM.bind, h]

theorem after_bind_error {α β : Type} {x : Eval α} {f : α → Eval β} {stop : Stop} {t : State}
    (h : x s = .error stop t) : (x >>= f).after s = t := by
  simp only [after, Bind.bind, EStateM.bind, h]

end Eval

namespace Store

variable {s₀ : Store} {s : State} {root other v e q : ObjectId} {span : Option Span}

/-- Nothing leads from new objects to those that were there. -/
theorem Adds.new_inside {s t : Store} (h : s.Adds t) (hv : s.next ≤ v)
    (hq : ReflTransGen t.Contains v q) :
    s.next ≤ q := by
  induction hq with
  | refl => exact hv
  | tail _ hstep ih => exact h.new ih hstep

theorem Adds.old_inside {s t : Store} (h : s.Adds t) (hq : ReflTransGen s.Contains v q) :
    ReflTransGen t.Contains v q := by
  induction hq with
  | refl => exact .refl
  | tail _ hstep ih =>
    refine .tail ih ?_
    rwa [Contains, h.value (has_of_mem_elements hstep)]

namespace Spares

theorem not_inside_new (h : s₀.Spares root other s.heap.store) (hq : s.heap.store.next ≤ q) :
    ¬ ReflTransGen s₀.Contains other q := fun hother =>
  absurd (h.made q hother) (Nat.not_lt.mpr (Nat.le_trans h.next hq))

theorem build (h : s₀.Spares root other s.heap.store) (x : Tree) :
    s₀.Spares root other (s.heap.build x).2.store :=
  h.adds (s.heap.adds_build x x.every_true).1 fun _ => (s.heap.laid_build x).2.2.2.value

theorem copy (h : s₀.Spares root other s.heap.store) :
    s₀.Spares root other ((Eval.copy e).after s).heap.store := by
  rcases Eval.copy_cases (o := e) (s := s) with ⟨x, -, hcopy⟩ | hnone
  · rw [Eval.after_ok hcopy]
    exact h.build x
  · rw [Eval.after_error hnone]
    exact h

theorem store {i : Nat} (h : s₀.Spares root other s.heap.store)
    (hv : ReflTransGen s.heap.store.Contains root v)
    (he : ∀ q, ReflTransGen s.heap.store.Contains e q → ¬ ReflTransGen s₀.Contains other q) :
    s₀.Spares root other ((Eval.store (.element v i) e span).after s).heap.store := by
  simp only [Eval.store]
  rw [Eval.after_bind_ok Eval.valueOf_eq]
  cases hes : s.heap.store.value v with
  | atom | tuple => exact h
  | vector es =>
    dsimp only
    split
    · refine h.setVector hv hes fun f hf => ?_
      rcases Array.mem_or_eq_of_mem_setIfInBounds hf with hold | rfl
      · exact .inl hold
      · exact .inr he
    · exact h

theorem assign {i : Nat} (h : s₀.Spares root other s.heap.store)
    (hv : ReflTransGen s.heap.store.Contains root v) :
    s₀.Spares root other
      (Eval.after (do Eval.store (.element v i) (← Eval.copy e) span) s).heap.store := by
  rcases Eval.copy_cases (o := e) (s := s) with ⟨x, -, hcopy⟩ | hnone
  · obtain ⟨hadds, hnew⟩ := s.heap.adds_build x x.every_true
    rw [Eval.after_bind_ok hcopy]
    refine store (h.build x) (hadds.old_inside hv) fun q hq => h.not_inside_new ?_
    exact hadds.new_inside hnew hq
  · rw [Eval.after_bind_error hnone]
    exact h

theorem append {items : List ObjectId} (h : s₀.Spares root other s.heap.store)
    (hv : ReflTransGen s.heap.store.Contains root v) :
    s₀.Spares root other ((Eval.append (v :: items) span).after s).heap.store := by
  cases items with
  | nil => exact h
  | cons item items =>
    unfold Eval.append
    rcases Eval.copyAll_cases (item :: items) s with ⟨xs, -, hcopies⟩ | hnone
    · rw [Eval.after_bind_ok hcopies]
      obtain ⟨hadds, hnew⟩ := s.heap.adds_buildAll xs (Tree.everyOf_true xs)
      obtain ⟨-, -, -, -, hkeeps⟩ := s.heap.laid_buildAll #[] xs
      have hgrown := h.adds hadds fun _ => hkeeps.value
      rw [Eval.after_bind_ok Eval.valueOf_eq]
      cases hes : (s.withHeap (s.heap.buildAll #[] xs).2).heap.store.value v with
      | atom | tuple => exact hgrown
      | vector es =>
        refine copy (s := (s.withHeap (s.heap.buildAll #[] xs).2).withStore _)
          (hgrown.setVector (hadds.old_inside hv) hes fun f hf => ?_)
        rcases Array.mem_append.mp hf with hold | hcopy
        · exact .inl hold
        · exact .inr fun q hq => h.not_inside_new (hadds.new_inside (hnew f hcopy) hq)
    · rw [Eval.after_bind_error hnone]
      exact h

end Spares
end Store

theorem Edit.spares {s₀ : Store} {s t : State} {root other : ObjectId} (h : Edit root other s t)
    (hs : s₀.Spares root other s.heap.store) : s₀.Spares root other t.heap.store := by
  cases h with
  | assign hv => exact hs.assign hv
  | store hv he => exact hs.store hv fun q hq hother => he q hq (hs.inside hother)
  | append hv => exact hs.append hv

theorem Edits.spares {s₀ : Store} {s t : State} {root other : ObjectId} (h : Edits root other s t)
    (hs : s₀.Spares root other s.heap.store) : s₀.Spares root other t.heap.store := by
  induction h with
  | refl => exact hs
  | tail _ hedit ih => exact hedit.spares ih

/-! ### Registration -/

theorem Table.Neat.live_insert {t : Table} (h : t.Neat) {o : ObjectId} :
    (t.insert o).2.live = t.live + 1 := by
  have hle := h.length_vacant_le
  simp only [Table.insert]
  split
  · next i rest hv =>
    simp only [hv, List.length_cons] at hle
    simp only [Table.live, Array.size_setIfInBounds, hv, List.length_cons]
    omega
  · next hv => simp [Table.live, hv]

/-- What has happened to one of several heaps when new objects have come. -/
structure Registers {ι : Type} [DecidableEq ι] (s : Store) (tables : ι → Table) (w : ι)
    (k : Heap) : Prop where
  tidy : Tidy k.store (Function.update tables w k.table)
  live : k.table.live + s.next = (tables w).live + k.store.next
  kept : ∀ i o, (tables w).Holds i o → k.table.Holds i o
  new : ∀ q, s.next ≤ q → q < k.store.next →
    k.store.Has q ∧ k.store.bindings q = 0 ∧ ∃ i, k.table.Holds i q

namespace Registers

variable {ι : Type} [DecidableEq ι] {s : Store} {tables : ι → Table} {w : ι} {k : Heap}

theorem alloc (h : Registers s tables w k) {v : Value} : Registers s tables w (k.alloc v).2 := by
  have hneat : k.table.Neat := by simpa using h.tidy.neat w
  have hholds : ∀ i q, (k.alloc v).2.table.Holds i q ↔
      i = (k.table.insert k.store.next).1 ∧ q = k.store.next ∨ k.table.Holds i q :=
    fun i q => hneat.holds_insert
  refine ⟨?_, ?_, fun i o ho => (hholds i o).mpr (.inr (h.kept i o ho)), fun q hle hlt => ?_⟩
  · have htidy := h.tidy.alloc w (v := v)
    simpa using htidy
  · have hlive := h.live
    have hinsert : (k.alloc v).2.table.live = k.table.live + 1 := hneat.live_insert
    rw [hinsert, Heap.next_alloc]
    omega
  · rw [Heap.next_alloc] at hlt
    rcases Nat.lt_succ_iff_lt_or_eq.mp hlt with hold | rfl
    · obtain ⟨hhas, hbindings, i, hi⟩ := h.new q hle hold
      refine ⟨Store.has_push.mpr (.inr hhas), ?_, i, (hholds i q).mpr (.inr hi)⟩
      exact Store.bindings_push.trans ((if_neg (Nat.ne_of_lt hold)).trans hbindings)
    · refine ⟨Store.has_push.mpr (.inl rfl), ?_, _, (hholds _ _).mpr (.inl ⟨rfl, rfl⟩)⟩
      exact Store.bindings_push.trans (if_pos rfl)

theorem build (h : Tidy s tables) (w : ι) (x : Tree) :
    Registers s tables w ((Heap.mk s (tables w)).build x).2 := by
  refine (Heap.build_induct (M := Registers s tables w) (R := fun _ => True) (P := fun _ => True)
    (fun k v hk _ _ => ⟨hk.alloc, trivial⟩) _ x ⟨?_, rfl, fun _ _ => id, ?_⟩ x.every_true).1
  · simpa using h
  · exact fun q hle hlt => absurd hlt (Nat.not_lt.mpr hle)

end Registers

/-! ### Copies by a host -/

namespace Heap

variable {h : Heap} {o q : ObjectId} {x : Tree}

theorem inside_build (hq : ReflTransGen (h.build x).2.store.Contains (h.build x).1 q) :
    h.store.next ≤ q ∧ q < (h.build x).2.store.next := by
  obtain ⟨hroot, hnext, hlaid, -⟩ := h.laid_build x
  obtain ⟨is, his⟩ := exists_follow hq
  rw [hroot] at his
  obtain ⟨hle, hlt, -⟩ := hlaid.bounds x his
  exact ⟨hle, hnext ▸ hlt⟩

/-- What is inside an object that was there was there. -/
theorem inside_original (hclosed : h.store.Closed) (ho : h.store.Has o)
    (hq : ReflTransGen (h.build x).2.store.Contains o q) : q < h.store.next := by
  have hgrows : h.store.Grows (fun _ => False) (h.build x).2.store :=
    .adds (h.adds_build x x.every_true).1
  exact (hgrows.inside hclosed ho (fun _ _ => False.elim) hq).2.lt_next

theorem tree?_original {y : Tree} (hclosed : h.store.Closed) (ho : h.store.Has o)
    (hy : h.store.tree? o = some y) :
    (h.build x).2.store.tree? o = some y := by
  obtain ⟨hadds, -⟩ := h.adds_build x x.every_true
  refine tree?_of_kept hadds.next (fun q hq => ?_) hy
  induction hq with
  | refl => exact hadds.value ho
  | tail _ hstep _ => exact hadds.value (hclosed _ _ hstep)

/-- Nothing that was there and nothing that is built are inside each other. -/
theorem spares_build (x : Tree) (hclosed : h.store.Closed) (ho : h.store.Has o) :
    (h.build x).2.store.Spares (h.build x).1 o (h.build x).2.store ∧
      (h.build x).2.store.Spares o (h.build x).1 (h.build x).2.store := by
  constructor
  · refine .start (fun q hq => ?_) fun q hq hq' => ?_
    · exact Nat.lt_of_lt_of_le (inside_original hclosed ho hq) (h.laid_build x).2.2.2.next
    · exact absurd (inside_original hclosed ho hq') (Nat.not_lt.mpr (inside_build hq).1)
  · refine .start (fun q hq => (inside_build hq).2) fun q hq hq' => ?_
    exact absurd (inside_original hclosed ho hq) (Nat.not_lt.mpr (inside_build hq').1)

end Heap

namespace Host

variable {h k : Host} {which : HeapName} {o e : ObjectId} {x : Tree}

theorem run_copy? (hx : h.store.tree? o = some x) : (Host.copy? which o).run h =
    (some ((h.heap which).build x).1, h.setHeap ((h.heap which).build x).2 which) := by
  unfold Host.copy?
  rw [StateT.run_bind, StateT.run_get]
  simp only [pure_bind, hx]
  rfl

/-- The object `e` of the host `k` is a deep copy of the object `o` of the host `h`, whose tree is
`x`: what is printed, and the type, are those of the tree. -/
structure Copied (h : Host) (which : HeapName) (o : ObjectId) (x : Tree) (e : ObjectId)
    (k : Host) : Prop where
  tree : k.store.tree? e = some x
  kind : (k.store.value e).kind = (h.store.value o).kind
  length : (k.store.value e).length? = (h.store.value o).length?
  equal : x.Every (fun a => ¬ a.IsNaN) →
    k.store.objectsEqual o e = true ∧ k.store.objectsEqual e o = true
  /-- At each position of the copy there is a new object, registered and not bound. -/
  new : ∀ is q, k.store.follow e is = some q → h.store.next ≤ q ∧ ¬ h.store.Has q ∧ k.store.Has q ∧
    (k.heap which).contains q = true ∧ k.store.bindings q = 0
  single : ∀ is js q, k.store.follow e is = some q → k.store.follow e js = some q → is = js
  live : (k.heap which).table.live = (h.heap which).table.live + x.nodes
  /-- The objects that were there have kept their values, counts and slots. -/
  kept : ∀ q, h.store.Has q → k.store.get? q = h.store.get? q
  slots : ∀ w i q, (h.tables w).Holds i q → (k.tables w).Holds i q
  others : ∀ w, w ≠ which → k.tables w = h.tables w
  /-- An evaluation copies into the main heap. -/
  evaluated : which = .main → Eval.copy o h.state = .ok e k.state
  /-- Whatever is assigned and appended inside the copy, the original means the same. -/
  original : ∀ s, Edits e o k.state s → s.heap.store.tree? o = some x
  copy : ∀ s, Edits o e k.state s → s.heap.store.tree? e = some x

theorem heap_setHeap {heap : Heap} : (h.setHeap heap which).heap which = heap := by
  cases which <;> rfl

theorem copied_of_tidy (htidy : h.Tidy) (hclosed : h.store.Closed) (ho : h.store.Has o)
    (hx : h.store.tree? o = some x) :
    h.Copied which o x ((h.heap which).build x).1 (h.setHeap ((h.heap which).build x).2 which) := by
  have hregisters := Registers.build htidy which x
  have hevaluated : which = .main → Eval.copy o h.state =
      .ok ((h.heap which).build x).1 (h.setHeap ((h.heap which).build x).2 which).state := by
    rintro rfl
    have hmain : h.state.heap.store.tree? o = some x := hx
    simp only [Eval.copy, Bind.bind, EStateM.bind, Eval.treeOf, hmain]
    rfl
  obtain ⟨hroot, hnext, hlaid, hkeeps⟩ := (h.heap which).laid_build x
  have htree := (h.heap which).tree?_build x
  rw [← store_heap h which] at hclosed ho hx
  have htreeo := @Heap.tree?_original _ _ x _ hclosed ho hx
  obtain ⟨hspares, hspares'⟩ := Heap.spares_build x hclosed ho
  have hkind := kind_eq_of_unfold htreeo htree
  rw [hkeeps.value ho.lt_next] at hkind
  rw [← heap_eq] at hregisters
  rw [store_heap] at hroot hnext hlaid hkind
  generalize ((h.heap which).build x).1 = e at *
  generalize ((h.heap which).build x).2 = heap at *
  have hstate : (h.setHeap heap which).state.heap.store = heap.store := store_setHeap which
  constructor
  case tree => rwa [store_setHeap]
  case kind =>
    rw [store_setHeap]
    exact hkind.1
  case length =>
    rw [store_setHeap]
    exact hkind.2
  case equal =>
    rw [store_setHeap]
    exact fun hnan => ⟨objectsEqual_of_tree? htreeo htree hnan,
      objectsEqual_of_tree? htree htreeo hnan⟩
  case new =>
    rw [store_setHeap, heap_setHeap]
    intro is q hq
    rw [hroot] at hq
    obtain ⟨hle, hlt, -⟩ := hlaid.bounds x hq
    obtain ⟨hhas, hbindings, i, hi⟩ := hregisters.new q hle (hnext ▸ hlt)
    refine ⟨hle, fun hn => Nat.not_lt.mpr hle hn.lt_next, hhas, ?_, hbindings⟩
    have hcontains := (hregisters.tidy.contains_iff (w := which) (o := q)).mpr
      ⟨i, by simpa using hi⟩
    simpa using hcontains
  case single =>
    rw [store_setHeap]
    intro is js q hq hq'
    rw [hroot] at hq hq'
    exact hlaid.follow_unique x hq hq'
  case live =>
    rw [heap_setHeap]
    have hlive := hregisters.live
    rw [hnext] at hlive
    rw [heap_eq h which]
    simp only
    omega
  case kept =>
    rw [store_setHeap]
    intro q hq
    rw [← store_heap h which] at hq ⊢
    exact hkeeps.get? hq.lt_next
  case slots =>
    rw [tables_setHeap]
    intro w i q hq
    by_cases hw : w = which
    · subst hw
      simpa using hregisters.kept i q hq
    · simpa [hw] using hq
  case others =>
    rw [tables_setHeap]
    exact fun w hw => Function.update_of_ne hw _ _
  case evaluated => exact hevaluated
  case original => exact fun s hs => (hs.spares (hstate.symm ▸ hspares)).tree? htreeo
  case copy => exact fun s hs => (hs.spares (hstate.symm ▸ hspares')).tree? htree

/-- An object in which nothing is inside itself has a deep copy in either heap, whatever has
happened before and whatever else there is. -/
theorem copy_deep {c : EvalContext} {b : Builtins} {m : Moment} (hm : Turns (.start c b) m)
    (which : HeapName) {o : ObjectId} (ho : m.host.store.Has o)
    (hacyclic : ∀ q, ReflTransGen m.host.store.Contains o q →
      ¬ TransGen m.host.store.Contains q q) :
    ∃ x e k, m.host.store.tree? o = some x ∧ (Host.copy? which o).run m.host = (some e, k) ∧
      m.host.Copied which o x e k := by
  have hclosed : m.host.store.Closed :=
    fun c o hin => (Config.sound_iff.mp (Turns.sound hm)).2.1 c o hin
  obtain ⟨x, hx⟩ := hclosed.exists_tree ho hacyclic
  exact ⟨x, _, _, hx, run_copy? hx, copied_of_tidy (Turns.tidy hm) hclosed ho hx⟩

/-- A number, a vector of it, and a tuple that has the vector twice. -/
def sharedVector : Moment :=
  let m :=
    { (Moment.start {} .standard).after (Host.alloc .main (.atom (.int 7))) with temps := [0] }
  let m := { m.after (Host.alloc .spare (.vector #[0])) with temps := [1, 0] }
  { m.after (Host.alloc .main (.tuple #[1, 1])) with temps := [2, 1, 0] }

theorem turns_sharedVector : Turns (.start {} .standard) sharedVector := by
  refine .tail (.tail (.single (@Turn.alloc _ .main (.atom (.int 7)) ?_))
    (@Turn.alloc _ .spare (.vector #[0]) ?_)) (@Turn.alloc _ .main (.tuple #[1, 1]) ?_)
  · simp [Value.elements]
  · intro o ho
    simp only [Value.elements, List.mem_toArray, List.mem_singleton] at ho
    subst ho
    exact .root (by simp [Moment.roots]; exact .inl rfl)
  · intro o ho
    simp only [Value.elements, List.mem_toArray, List.mem_cons, List.not_mem_nil,
      or_false, or_self] at ho
    subst ho
    exact .root (by simp [Moment.roots]; exact .inl rfl)

theorem copy_deep_sharedVector :
    sharedVector.host.store.Has 2 ∧ (sharedVector.host.heap .spare).table.live = 1 ∧
      ∃ x e k, sharedVector.host.store.tree? 2 = some x ∧
        (Host.copy? .spare 2).run sharedVector.host = (some e, k) ∧
          sharedVector.host.Copied .spare 2 x e k := by
  refine ⟨by decide, by decide, copy_deep turns_sharedVector .spare (by decide) fun q _ hq => ?_⟩
  have hless : ∀ c < sharedVector.host.store.next,
      ∀ o ∈ (sharedVector.host.store.value c).elements, o < c := by
    decide
  have hpath : ∀ {a b}, TransGen sharedVector.host.store.Contains a b → b < a := by
    intro a b hab
    induction hab with
    | single hstep => exact hless _ (has_of_mem_elements hstep).lt_next _ hstep
    | tail _ hstep ih => exact Nat.lt_trans (hless _ (has_of_mem_elements hstep).lt_next _ hstep) ih
  exact Nat.lt_irrefl q (hpath hq)

end Host
end Scripting
