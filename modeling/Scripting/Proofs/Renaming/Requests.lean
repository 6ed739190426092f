import Mathlib.Tactic.Common
import Scripting.Proofs.Eval.Decomposition
import Scripting.Proofs.Renaming.Forms
import Scripting.Proofs.Store.Completeness

/-! Requests, and what may come between them. A request ends with the stacks taken back after an
error and with functions forgotten. Between requests the collector may free what the script's state
does not reach; the pairs of objects that are in reach on both sides stay as they were. -/
namespace Scripting

variable {D : Decl → Prop} {R : Pairing} {P Q : ObjectId → Prop}

/-! ### Fewer pairs -/

/-- The pairs of objects with given properties. -/
def Pairing.among (R : Pairing) (P Q : ObjectId → Prop) : Pairing := fun o p => R o p ∧ P o ∧ Q p

theorem forall₂_among {os ps : List ObjectId} (h : List.Forall₂ R os ps) (hos : ∀ o ∈ os, P o)
    (hps : ∀ p ∈ ps, Q p) : List.Forall₂ (R.among P Q) os ps := by
  induction h with
  | nil => exact .nil
  | cons hop _ ih =>
    rw [List.forall_mem_cons] at hos hps
    exact .cons ⟨hop, hos.1, hps.1⟩ (ih hos.2 hps.2)

theorem rel_among {a b : Option ObjectId} (h : Option.Rel R a b) (ha : ∀ o ∈ a, P o)
    (hb : ∀ p ∈ b, Q p) :
    Option.Rel (R.among P Q) a b := by
  cases h with
  | none => exact .none
  | some hop => exact .some ⟨hop, ha _ rfl, hb _ rfl⟩

theorem Value.Renamed.among {v w : Value} (h : v.Renamed D R w) (hv : ∀ o ∈ v.elements, P o)
    (hw : ∀ p ∈ w.elements, Q p) : v.Renamed D (R.among P Q) w := by
  cases h with
  | atom ha => exact .atom ha
  | tuple h =>
    exact .tuple (forall₂_among h (by simpa [Value.elements] using hv)
      (by simpa [Value.elements] using hw))
  | vector h =>
    exact .vector (forall₂_among h (by simpa [Value.elements] using hv)
      (by simpa [Value.elements] using hw))

/-- Objects with the properties are still there and mean the same, whatever became of the others. -/
theorem Store.Renamed.among {s t s' t' : Store} (h : s.Renamed D R t)
    (hP : ∀ c o, P c → s.Contains c o → P o) (hQ : ∀ c o, Q c → t.Contains c o → Q o)
    (hs : ∀ o, P o → s'.get? o = s.get? o) (ht : ∀ p, Q p → t'.get? p = t.get? p)
    (hleft : s'.Orderly) (hright : t'.Orderly) : s'.Renamed D (R.among P Q) t' where
  has := fun ⟨hop, ho, hp⟩ => by
    rw [Store.Has, Store.Has, hs _ ho, ht _ hp]
    exact h.has hop
  value := fun {o p} ⟨hop, ho, hp⟩ => by
    have hov : s'.value o = s.value o := by rw [Store.value, Store.value, hs o ho]
    have hpv : t'.value p = t.value p := by rw [Store.value, Store.value, ht p hp]
    rw [hov, hpv]
    exact (h.value hop).among (fun e he => hP o e ho he) fun e he => hQ p e hp he
  unique := fun {o p o' p'} ⟨hop, ho, _⟩ ⟨hop', _, _⟩ => by
    refine (h.unique hop hop').imp_right fun hfun => ?_
    rwa [Store.IsFunction, Store.value, hs o ho]
  left := hleft
  right := hright

theorem Pointwise.imp_mem {α β : Type} {r r' : α → β → Prop} {xs : Array α} {ys : Array β}
    (h : Pointwise r xs ys) (hr : ∀ x ∈ xs, ∀ y ∈ ys, r x y → r' x y) : Pointwise r' xs ys := by
  rw [iff_getElem?]
  intro i
  rcases rel_cases (h.getElem? i) with ⟨hx, hy⟩ | ⟨x, y, hx, hy, hxy⟩
  · rw [hx, hy]
    exact .none
  · rw [hx, hy]
    exact .some (hr x (Array.mem_of_getElem? hx) y (Array.mem_of_getElem? hy) hxy)

namespace Environment

variable {e f : Environment} {o : ObjectId}

theorem mem_roots : o ∈ e.roots ↔
    (∃ x ∈ e.scopes, (∃ v ∈ x.vars, v.value = some o) ∨ x.last = some o) ∨
      (∃ x ∈ e.frames, x.result = some o) ∨ ∃ l ∈ e.loops, l.result = some o := by
  simp [roots]

theorem Renamed.among (h : e.Renamed D R f) (he : ∀ o ∈ e.roots, P o) (hf : ∀ p ∈ f.roots, Q p) :
    e.Renamed D (R.among P Q) f where
  scopes := h.scopes.imp_mem fun x hx y hy hxy =>
    { hxy with
      vars := hxy.vars.imp_mem fun v hv w hw hvw =>
        ⟨hvw.name, rel_among hvw.value
          (fun o ho => he o (mem_roots.mpr (.inl ⟨x, hx, .inl ⟨v, hv, ho⟩⟩)))
          fun p hp => hf p (mem_roots.mpr (.inl ⟨y, hy, .inl ⟨w, hw, hp⟩⟩))⟩
      last := rel_among hxy.last (fun o ho => he o (mem_roots.mpr (.inl ⟨x, hx, .inr ho⟩)))
        fun p hp => hf p (mem_roots.mpr (.inl ⟨y, hy, .inr hp⟩)) }
  frames := h.frames.imp_mem fun x hx y hy hxy =>
    { hxy with
      result := rel_among hxy.result (fun o ho => he o (mem_roots.mpr (.inr (.inl ⟨x, hx, ho⟩))))
        fun p hp => hf p (mem_roots.mpr (.inr (.inl ⟨y, hy, hp⟩))) }
  loops := h.loops.imp_mem fun x hx y hy hxy =>
    { hxy with
      result := rel_among hxy.result (fun o ho => he o (mem_roots.mpr (.inr (.inr ⟨x, hx, ho⟩))))
        fun p hp => hf p (mem_roots.mpr (.inr (.inr ⟨y, hy, hp⟩))) }
  maxCallDepth := h.maxCallDepth

end Environment

namespace State

variable {s t u s' t' : State} {o : ObjectId}

/-! ### Between requests -/

/-- What a script can see is as before. -/
structure Undisturbed (s t : State) : Prop where
  same : t = { s with heap := t.heap, log := t.log }
  kept : ∀ o, s.heap.store.Reach s.roots o → t.heap.store.get? o = s.heap.store.get? o
  orderly : s.heap.store.Orderly → t.heap.store.Orderly

namespace Undisturbed

theorem of_store (hsame : t = { s with heap := t.heap, log := t.log })
    (hstore : t.heap.store = s.heap.store) : s.Undisturbed t :=
  ⟨hsame, fun o _ => by rw [hstore], fun h => hstore ▸ h⟩

theorem roots_eq (h : s.Undisturbed t) : t.roots = s.roots := by
  rw [h.same]
  rfl

theorem reach (h : s.Undisturbed t) (ho : s.heap.store.Reach s.roots o) :
    t.heap.store.Reach t.roots o := by
  rw [h.roots_eq]
  exact ho.congr fun q hq => by simp only [Store.value, h.kept q hq]

theorem trans (h : s.Undisturbed t) (h' : t.Undisturbed u) : s.Undisturbed u := by
  refine ⟨?_, fun o ho => (h'.kept o (h.reach ho)).trans (h.kept o ho),
    fun hs => h'.orderly (h.orderly hs)⟩
  rw [h'.same, h.same]

/-- A pass leaves alone what the script's state reaches. -/
theorem sweep {heap : Heap} {table : Table} {roots : List ObjectId} {limit : Option Nat}
    (hstore : heap.store = s.heap.store) (hroots : ∀ o ∈ s.roots, o ∈ roots) :
    s.Undisturbed (s.withHeap ⟨(heap.sweep roots limit).2.store, table⟩) where
  same := rfl
  kept := fun o ho => by
    have hreach : heap.store.Reach roots o := by
      rw [hstore]
      induction ho with
      | root hin => exact .root (hroots _ hin)
      | inside _ hin ih => exact .inside ih hin
    rw [← hstore]
    exact Heap.get?_sweep_of_reach hreach
  orderly := fun h => by
    rw [← hstore] at h
    refine ⟨h.acyclic.mono fun c o => Heap.contains_of_sweep, fun c o hco => ?_⟩
    exact Heap.has_sweep_of_mem (Store.has_of_mem_elements hco) hco
      (h.closed c o (Heap.contains_of_sweep hco))

end Undisturbed

/-- The pairs that are in reach on both sides are not disturbed. -/
theorem Renamed.undisturbed (h : s.Renamed D R t) (hs : s.Undisturbed s') (ht : t.Undisturbed t') :
    s'.Renamed D (R.among (s.heap.store.Reach s.roots) (t.heap.store.Reach t.roots)) t' := by
  have hmemo : ∀ {u u' : State} {k : Nat} {q : ObjectId} {v : Value}, u.Undisturbed u' →
      (k, q) ∈ u.functions → u.heap.store.value q = v → u'.heap.store.value q = v := by
    intro u u' k q v hu hq hv
    rw [← hv, Store.value, Store.value, hu.kept q (.root ?_)]
    exact List.mem_append_right _ (List.mem_map.mpr ⟨_, hq, rfl⟩)
  have hstore : s'.heap.store.Renamed D
      (R.among (s.heap.store.Reach s.roots) (t.heap.store.Reach t.roots)) t'.heap.store :=
    h.store.among (fun c o hc ho => .inside hc ho) (fun c o hc ho => .inside hc ho) hs.kept ht.kept
      (hs.orderly h.store.left) (ht.orderly h.store.right)
  have henv := h.env.among (P := s.heap.store.Reach s.roots) (Q := t.heap.store.Reach t.roots)
    (fun o ho => .root (List.mem_append_left _ ho)) fun p hp => .root (List.mem_append_left _ hp)
  have hremembered : ∀ d, D d →
      Remembered D s'.heap.store t'.heap.store s.functions t.functions d := by
    intro d hd
    have hold := h.memo d hd
    refine ⟨fun o p ho hp => ?_, fun hnone o ho => hmemo hs ho (hold.left hnone o ho),
      fun hnone p hp => hmemo ht hp (hold.right hnone p hp)⟩
    obtain ⟨e, he, hid, hov, hpv⟩ := hold.both o p ho hp
    exact ⟨e, he, hid, hmemo hs ho hov, hmemo ht hp hpv⟩
  rw [hs.same, ht.same]
  exact ⟨hstore, henv, hremembered, h.builtins, h.plain, h.sink, h.isInterrupted, h.isTraced⟩

/-! ### The end of a request -/

theorem Renamed.restore (h : s.Renamed D R t) (c : Checkpoint) :
    (s.restore c).Renamed D R (t.restore c) ∧
      R.Grows s.heap.store t.heap.store R (s.restore c).heap.store (t.restore c).heap.store := by
  have hgrow : R.Grows s.heap.store t.heap.store R (s.restore c).heap.store
      (t.restore c).heap.store :=
    ⟨fun _ _ => id, .inl, .recounts Environment.recounts_restore,
      .recounts Environment.recounts_restore⟩
  refine ⟨h.change hgrow ?_ (h.env.restore c) rfl rfl, hgrow⟩
  exact h.store.recounts Environment.recounts_restore Environment.recounts_restore

end State

/-- Which functions are forgotten makes no difference, if numbers tell declarations apart. -/
theorem Remembered.forget {s t : Store} {fs gs fs' gs' : List (Nat × ObjectId)} {d : Decl}
    (h : Remembered D s t fs gs d) (hd : ∀ e, D e → e.id = d.id → e = d)
    (hfs : ∀ x ∈ fs', x ∈ fs) (hgs : ∀ x ∈ gs', x ∈ gs) : Remembered D s t fs' gs' d where
  both := fun o p ho hp => h.both o p (hfs _ ho) (hgs _ hp)
  left := fun _ o ho => by
    cases hfound : gs.lookup d.id with
    | none => exact h.left hfound o (hfs _ ho)
    | some p =>
      obtain ⟨e, he, hid, hov, -⟩ := h.both o p (hfs _ ho) (Step.mem_of_lookup hfound)
      rwa [hd e he hid] at hov
  right := fun _ p hp => by
    cases hfound : fs.lookup d.id with
    | none => exact h.right hfound p (hgs _ hp)
    | some o =>
      obtain ⟨e, he, hid, -, hpv⟩ := h.both o p (Step.mem_of_lookup hfound) (hgs _ hp)
      rwa [hd e he hid] at hpv

/-- Nor does it make one if both runs forget the same. -/
theorem Remembered.forget_same {s : Store} {fs fs' : List (Nat × ObjectId)} {d : Decl}
    (h : Remembered D s s fs fs d) (hfs : ∀ x ∈ fs', x ∈ fs) : Remembered D s s fs' fs' d := by
  have hfound : ∀ o, (d.id, o) ∈ fs' → fs'.lookup d.id ≠ none := by
    intro o ho hnone
    have := List.lookup_eq_none_iff.mp hnone _ ho
    simp at this
  exact ⟨fun o p ho hp => h.both o p (hfs _ ho) (hfs _ hp),
    fun hnone o ho => absurd hnone (hfound o ho), fun hnone p hp => absurd hnone (hfound p hp)⟩

namespace State

variable {s t : State}

theorem Renamed.prune (h : s.Renamed D R t) (hD : ∀ d e, D d → D e → e.id = d.id → e = d)
    (held held' : List ObjectId) : (s.prune held).Renamed D R (t.prune held') := by
  obtain ⟨fs, log, hs, hfs⟩ := s.prune_eq held
  obtain ⟨gs, log', ht, hgs⟩ := t.prune_eq held'
  rw [hs, ht]
  exact { h with memo := fun d hd => (h.memo d hd).forget (fun e => hD d e hd) hfs hgs }

theorem Renamed.prune_same (h : s.Renamed D R s) (held : List ObjectId) :
    (s.prune held).Renamed D R (s.prune held) := by
  obtain ⟨fs, log, hs, hfs⟩ := s.prune_eq held
  rw [hs]
  exact { h with memo := fun d hd => (h.memo d hd).forget_same hfs }

end State

namespace Eval

variable {s t : State}

/-- An error takes both stacks back. -/
theorem Ended.unwinding {α β : Type} {x : Eval α} {y : Eval β} {Q : Pairing → α → β → Prop}
    (hst : s.Renamed D R t) (h : Ended D R s t Q (x s) (y t)) :
    Ended D R s t Q (Eval.unwinding x s) (Eval.unwinding y t) := by
  unfold Eval.unwinding
  rw [hst.env.checkpoint]
  cases hx : x s <;> cases hy : y t <;> simp only [hx, hy, Ended] at h ⊢
  · exact h
  · obtain ⟨he, R', hgrow, hst'⟩ := h
    obtain ⟨hrestored, hgrow'⟩ := hst'.restore s.env.checkpoint
    exact ⟨he, R', hgrow.trans hgrow', hrestored⟩

variable {n : Node}

theorem unwinding_node (hD : ∀ d, D d → Within D d.body) (hn : Within D n) (hst : s.Renamed D R t) :
    Ended D R s t Paired (unwinding (node fuel n) s) (unwinding (node fuel n) t) :=
  .unwinding hst (mirrored_node hD fuel R n hn s t hst)

/-- A tree evaluates to the same, whatever the host holds. -/
theorem Parallel.tree (held held' : List ObjectId) (hD : ∀ d, D d → Within D d.body)
    (hids : ∀ d e, D d → D e → e.id = d.id → e = d) (hn : Within D n) :
    Parallel D R (Eval.tree held n) (Eval.tree held' n) Paired := by
  intro s t hst
  have hended := unwinding_node hD hn hst
  unfold Eval.tree
  cases hs : unwinding (node fuel n) s <;> cases ht : unwinding (node fuel n) t <;>
    simp only [hs, ht, Ended, State.heap_prune] at hended ⊢
  · obtain ⟨R', hgrow, hst', hop⟩ := hended
    exact ⟨R', hgrow, hst'.prune hids _ _, hop⟩
  · obtain ⟨he, R', hgrow, hst'⟩ := hended
    exact ⟨he, R', hgrow, hst'.prune hids _ _⟩

end Eval

end Scripting
