import Mathlib.Tactic.Common
import Scripting.Proofs.Structured.Matching

/-! The elementary actions and the builtins match themselves. -/
namespace Scripting

namespace Known

variable {K : Known} {s : State} {h : Heap} {v : Value} {o : ObjectId}

def tree (K : Known) (t : Tree) : Prop := t.Every K.atom

theorem Safe.alloc (hs : K.Safe { s with heap := h }) (hv : K.value v) :
    K.Safe { s with heap := (h.alloc v).2 } ∧ K.object (h.alloc v).1 := by
  refine ⟨⟨hs.var, hs.scope, hs.frame, ?_, hs.memo, ?_⟩, hs.fresh _ Nat.le.refl⟩
  · intro o ho
    simp only [Heap.alloc, Store.value_push]
    split
    · exact hv
    · exact hs.inside o ho
  · intro o ho
    simp only [Heap.alloc, Store.next_push] at ho
    exact hs.fresh o (Nat.le_of_succ_le ho)

theorem Safe.build {t : Tree} (hs : K.Safe { s with heap := h }) (ht : K.tree t) :
    K.Safe { s with heap := (h.build t).2 } ∧ K.object (h.build t).1 :=
  Heap.build_induct (M := fun h => K.Safe { s with heap := h })
    (fun _ _ hs he ha => hs.alloc ⟨he, ha⟩) h t hs ht

theorem Safe.buildAll {ts : List Tree} (hs : K.Safe { s with heap := h })
    (ht : Tree.EveryOf K.atom ts) :
    K.Safe { s with heap := (h.buildAll #[] ts).2 } ∧ ∀ e ∈ (h.buildAll #[] ts).1, K.object e :=
  Heap.buildAll_induct (M := fun h => K.Safe { s with heap := h })
    (fun _ _ hs he ha => hs.alloc ⟨he, ha⟩) h #[] ts hs ht (by simp)

theorem Safe.setValue (hs : K.Safe s) (hv : K.value v) :
    K.Safe { s with heap := { s.heap with store := s.heap.store.setValue o v } } := by
  refine ⟨hs.var, hs.scope, hs.frame, ?_, hs.memo, ?_⟩
  · intro p hp
    simp only [Store.value_setValue]
    split
    · exact hv
    · exact hs.inside p hp
  · intro p hp
    exact hs.fresh p (by simpa using hp)

theorem Safe.tree {t : Tree} (hs : K.Safe s) (ho : K.object o)
    (h : s.heap.store.tree? o = some t) : K.tree t :=
  Store.every_of_unfold (fun p hp => (hs.inside p hp).1) (fun p a hp => (hs.inside p hp).2 a) ho h

theorem Safe.variableAt (hs : K.Safe s) {p : Slot} {x : Variable}
    (hx : s.env.variableAt? p = some x) (ho : x.value = some o) : K.object o := by
  obtain ⟨scope, hscope, hv⟩ := Option.bind_eq_some_iff.mp hx
  exact hs.var scope (Array.mem_of_getElem? hscope) x (Array.mem_of_getElem? hv) o ho

theorem Safe.get (hs : K.Safe s) {name : String} {span : Option Span}
    (h : s.env.get name span = .ok o) : K.object o := by
  simp only [Environment.get] at h
  split at h
  · simp at h
  · split at h
    · simp at h
    · next hbound =>
      obtain ⟨x, hx, hv⟩ := Option.bind_eq_some_iff.mp hbound
      cases h
      exact hs.variableAt hx hv

theorem Safe.findFunction (hs : K.Safe s) {name : String} {d : Decl}
    (h : s.env.findFunction name = some d) : K.decl d := by
  have hb : ∀ n, s.env.findFunctionBelow name n = some d → K.decl d := by
    intro n hn
    induction n with
    | zero => simp [Environment.findFunctionBelow] at hn
    | succ n ih =>
      simp only [Environment.findFunctionBelow] at hn
      split at hn
      · next hf =>
        cases hn
        obtain ⟨scope, hscope, hd⟩ := Option.bind_eq_some_iff.mp hf
        exact hs.scope scope (Array.mem_of_getElem? hscope) _ (List.mem_of_find?_eq_some hd)
      · exact ih hn
  exact hb _ h

/-- A change of stacks and counts keeps a state safe if it brings no unknown object in. -/
theorem Safe.bindings (hs : K.Safe s) {e : Environment} {u : Store}
    (hvar : ∀ scope ∈ e.scopes, ∀ x ∈ scope.vars, ∀ o, x.value = some o → K.object o)
    (hscope : ∀ scope ∈ e.scopes, ∀ d ∈ scope.functions, K.decl d)
    (hframe : ∀ f ∈ e.frames, K.decl f.decl) (hvalue : ∀ o, u.value o = s.heap.store.value o)
    (hnext : u.next = s.heap.store.next) :
    K.Safe { s with env := e, heap := { s.heap with store := u } } :=
  ⟨hvar, hscope, hframe, fun o ho => by simpa [hvalue] using hs.inside o ho, hs.memo,
    fun o ho => hs.fresh o (hnext ▸ ho)⟩

theorem Safe.env (hs : K.Safe s) {e : Environment}
    (hvar : ∀ scope ∈ e.scopes, ∀ x ∈ scope.vars, ∀ o, x.value = some o → K.object o)
    (hscope : ∀ scope ∈ e.scopes, ∀ d ∈ scope.functions, K.decl d)
    (hframe : ∀ f ∈ e.frames, K.decl f.decl) : K.Safe { s with env := e } :=
  hs.bindings hvar hscope hframe (fun _ => rfl) rfl

theorem exists_of_mem_modify {α : Type} {xs : Array α} {i : Nat} {f : α → α} {a : α}
    (h : a ∈ xs.modify i f) : a ∈ xs ∨ ∃ b ∈ xs, a = f b := by
  obtain ⟨j, hj, rfl⟩ := Array.mem_iff_getElem.mp h
  simp only [Array.getElem_modify]
  split
  · exact .inr ⟨_, Array.getElem_mem _, rfl⟩
  · exact .inl (Array.getElem_mem _)

theorem exists_of_mem_modifyScope {e : Environment} {i : Nat} {f : Scope → Scope} {scope : Scope}
    (h : scope ∈ (e.modifyScope i f).scopes) : scope ∈ e.scopes ∨ ∃ old ∈ e.scopes, scope = f old :=
  exists_of_mem_modify h

theorem Safe.declare (hs : K.Safe s) {name : String} :
    K.Safe { s with env := (s.env.declare name).2 } := by
  simp only [Environment.declare]
  split
  · exact hs
  · refine hs.env ?_ ?_ hs.frame
    · intro scope hscope x hx o ho
      obtain hin | ⟨old, hin, rfl⟩ := exists_of_mem_modifyScope hscope
      · exact hs.var scope hin x hx o ho
      · obtain hx | rfl := Array.mem_push.mp hx
        · exact hs.var old hin x hx o ho
        · simp at ho
    · intro scope hscope
      obtain hin | ⟨old, hin, rfl⟩ := exists_of_mem_modifyScope hscope
      · exact hs.scope scope hin
      · exact hs.scope old hin

theorem Safe.assign (hs : K.Safe s) {p : Slot} (ho : K.object o) :
    K.Safe { s with
      env := (s.env.assign s.heap.store p o).1
      heap := { s.heap with store := (s.env.assign s.heap.store p o).2 } } := by
  simp only [Environment.assign]
  split
  · exact hs
  · next bound hbound =>
    refine hs.bindings ?_ ?_ hs.frame ?_ ?_
    · intro scope hscope x hx q hq
      obtain hin | ⟨old, hin, rfl⟩ := exists_of_mem_modifyScope hscope
      · exact hs.var scope hin x hx q hq
      · dsimp only at hx
        obtain hx | ⟨y, -, rfl⟩ := exists_of_mem_modify hx
        · exact hs.var old hin x hx q hq
        · cases hq
          exact ho
    · intro scope hscope
      obtain hin | ⟨old, hin, rfl⟩ := exists_of_mem_modifyScope hscope
      · exact hs.scope scope hin
      · exact hs.scope old hin
    · intro q
      cases bound.value <;> simp
    · cases bound.value <;> simp

theorem Safe.releaseAll (hs : K.Safe s) {scope : Scope} {e : Environment}
    (hscopes : ∀ x ∈ e.scopes, x ∈ s.env.scopes) (hframes : e.frames = s.env.frames) :
    K.Safe { s with env := e, heap := { s.heap with store := s.heap.store.releaseAll scope } } := by
  have hkeep : ∀ (vars : List Variable) (u : Store),
      (∀ o, (vars.foldl (fun s v => v.value.elim s s.release) u).value o = u.value o) ∧
        (vars.foldl (fun s v => v.value.elim s s.release) u).next = u.next := by
    intro vars
    induction vars with
    | nil => exact fun u => ⟨fun _ => rfl, rfl⟩
    | cons v vars ih =>
      intro u
      obtain ⟨hv, hn⟩ := ih (v.value.elim u u.release)
      cases hval : v.value <;> simp_all
  refine hs.bindings (fun x hx => hs.var x (hscopes x hx)) (fun x hx => hs.scope x (hscopes x hx))
    (hframes ▸ hs.frame) ?_ ?_
  · simpa [Store.releaseAll] using (hkeep scope.vars.toList s.heap.store).1
  · simpa [Store.releaseAll] using (hkeep scope.vars.toList s.heap.store).2

theorem Safe.leave (hs : K.Safe s) :
    K.Safe { s with
      env := (s.env.leave s.heap.store).1
      heap := { s.heap with store := (s.env.leave s.heap.store).2 } } := by
  simp only [Environment.leave]
  split
  · split
    · refine hs.releaseAll (fun x hx => ?_) rfl
      obtain ⟨i, hi, rfl⟩ := Array.mem_iff_getElem.mp hx
      simp
    · exact hs
  · exact hs

end Known

namespace Structured

open Eval

variable {α : Type} {K : Known} {B : Environment} {o : ObjectId} {v : Value}

theorem blind_read {r : State → α} (hr : ∀ s, r s.unmarked = r s) : Blind (read r) :=
  fun s => congrArg (EStateM.Result.ok · s.unmarked) (hr s)

theorem blind_modifyGet {g : State → α × State}
    (hg : ∀ s, g s.unmarked = ((g s).1, (g s).2.unmarked)) : Blind (modifyGet g : Eval α) := by
  intro s
  show EStateM.Result.ok (g s.unmarked).1 (g s.unmarked).2 = _
  rw [hg]
  rfl

namespace Matches

theorem read {r : State → α} {G : α → Prop} (hr : ∀ s, r s.unmarked = r s)
    (hG : ∀ s, s.env.bare = B → K.Safe s → G (r s)) :
    Matches K B (Eval.read r) (Eval.read r) (Steady G B) := by
  refine (blind_read hr).matches fun s a s' hB hs h => ?_
  cases h
  exact ⟨⟨rfl, hG s hB hs, hB⟩, hs⟩

/-- A change that keeps the stacks but for variables, and the state safe. -/
theorem change {g : State → α × State} {G : α → Prop}
    (hg : ∀ s, g s.unmarked = ((g s).1, (g s).2.unmarked))
    (hbare : ∀ s, (g s).2.env.bare = s.env.bare)
    (hsafe : ∀ s, K.Safe s → K.Safe (g s).2 ∧ G (g s).1) :
    Matches K B (modifyGet g : Eval α) (modifyGet g) (Steady G B) := by
  refine (blind_modifyGet hg).matches fun s a s' hB hs h => ?_
  cases h
  exact ⟨⟨rfl, (hsafe s hs).2, (hbare s).trans hB⟩, (hsafe s hs).1⟩

theorem modify {g : State → State} (hg : ∀ s, g s.unmarked = (g s).unmarked)
    (hbare : ∀ s, (g s).env.bare = s.env.bare) (hsafe : ∀ s, K.Safe s → K.Safe (g s)) :
    Matches K B (MonadState.modifyGet fun s => ((), g s) : Eval Unit)
      (MonadState.modifyGet fun s => ((), g s)) (Steady (fun _ => True) B) :=
  change (fun s => by simp [hg]) hbare fun s hs => ⟨hsafe s hs, trivial⟩

theorem ofExcept {x : Except Error α} {G : α → Prop} (h : ∀ a, x = .ok a → G a) :
    Matches K B (Eval.ofExcept x) (Eval.ofExcept x) (Steady G B) := by
  cases x with
  | ok a => exact pure ⟨rfl, h a rfl, rfl⟩
  | error e => exact raise

theorem alloc (hv : K.value v) :
    Matches K B (Eval.alloc v) (Eval.alloc v) (Steady K.object B) :=
  change (fun _ => rfl) (fun _ => rfl) fun _ hs => hs.alloc hv

theorem allocAtom {a : Atom} (ha : ∀ d, a ≠ .function d) :
    Matches K B (Eval.allocAtom a) (Eval.allocAtom a) (Steady K.object B) :=
  alloc (Known.value_of_atom ha)

theorem allocNone : Matches K B Eval.allocNone Eval.allocNone (Steady K.object B) :=
  alloc Known.value_none

theorem valueOf (ho : K.object o) :
    Matches K B (Eval.valueOf o) (Eval.valueOf o) (Steady K.value B) :=
  read (fun _ => rfl) fun _ _ hs => hs.inside o ho

theorem setValue (hv : K.value v) :
    Matches K B (Eval.setValue o v) (Eval.setValue o v) (Steady (fun _ => True) B) :=
  modify (fun _ => rfl) (fun _ => rfl) fun _ hs => hs.setValue hv

theorem treeOf (ho : K.object o) :
    Matches K B (Eval.treeOf o) (Eval.treeOf o) (Steady K.tree B) := by
  have hb : Blind (Eval.treeOf o) := by
    intro s
    simp only [Eval.treeOf, show s.unmarked.heap = s.heap from rfl]
    cases s.heap.store.tree? o <;> rfl
  refine hb.matches fun s t s' hB hs h => ?_
  simp only [Eval.treeOf] at h
  split at h <;> cases h
  exact ⟨⟨rfl, hs.tree ho ‹_›, hB⟩, hs⟩

theorem build {t : Tree} (ht : K.tree t) :
    Matches K B (Eval.build t) (Eval.build t) (Steady K.object B) :=
  change (fun _ => rfl) (fun _ => rfl) fun _ hs => hs.build ht

theorem copy (ho : K.object o) : Matches K B (Eval.copy o) (Eval.copy o) (Steady K.object B) :=
  (treeOf ho).andThen fun _ ht => build ht

theorem treesOf {os : List ObjectId} (ho : ∀ o ∈ os, K.object o) :
    Matches K B (Eval.treesOf os) (Eval.treesOf os) (Steady (Tree.EveryOf K.atom) B) := by
  induction os with
  | nil => exact pure ⟨rfl, trivial, rfl⟩
  | cons o os ih =>
    refine (treeOf (ho o (by simp))).andThen fun t ht => ?_
    refine (ih fun p hp => ho p (by simp [hp])).andThen fun ts hts => ?_
    exact pure ⟨rfl, ⟨ht, hts⟩, rfl⟩

theorem copyAll {os : List ObjectId} (ho : ∀ o ∈ os, K.object o) :
    Matches K B (Eval.copyAll os) (Eval.copyAll os)
      (Steady (fun es => ∀ e ∈ es, K.object e) B) := by
  refine (treesOf ho).andThen fun ts hts => ?_
  exact change (fun _ => rfl) (fun _ => rfl) fun _ hs => hs.buildAll hts

theorem textOf (ho : K.object o) :
    Matches K B (Eval.textOf o) (Eval.textOf o) (Steady (fun _ => True) B) :=
  (treeOf ho).andThen fun _ _ => pure ⟨rfl, trivial, rfl⟩

/-- A change of what is neither on the stacks nor in the heap. -/
theorem outside {g : State → State} (hg : ∀ s, g s.unmarked = (g s).unmarked)
    (hsame : ∀ s, (g s).env = s.env ∧ (g s).heap = s.heap ∧ (g s).functions = s.functions) :
    Matches K B (MonadState.modifyGet fun s => ((), g s) : Eval Unit)
      (MonadState.modifyGet fun s => ((), g s)) (Steady (fun _ => True) B) := by
  refine modify hg (fun s => by rw [(hsame s).1]) fun s hs => ?_
  obtain ⟨he, hh, hf⟩ := hsame s
  exact ⟨he ▸ hs.var, he ▸ hs.scope, he ▸ hs.frame, hh ▸ hs.inside, hf ▸ hs.memo, hh ▸ hs.fresh⟩

theorem record {event : LogEvent} :
    Matches K B (Eval.record event) (Eval.record event) (Steady (fun _ => True) B) :=
  outside (fun _ => rfl) fun _ => ⟨rfl, rfl, rfl⟩

theorem write {text : String} :
    Matches K B (Eval.write text) (Eval.write text) (Steady (fun _ => True) B) := by
  unfold Eval.write
  split
  · exact pure ⟨rfl, trivial, rfl⟩
  · refine (read (G := fun _ => True) (fun _ => rfl) fun _ _ _ => trivial).andThen fun b _ => ?_
    split
    · exact record
    · exact outside (fun _ => rfl) fun _ => ⟨rfl, rfl, rfl⟩

theorem checkInterrupt {span : Option Span} :
    Matches K B (Eval.checkInterrupt span) (Eval.checkInterrupt span)
      (Steady (fun _ => True) B) := by
  refine (read (G := fun _ => True) (fun _ => rfl) fun _ _ _ => trivial).andThen fun b _ => ?_
  split
  · exact raise
  · exact pure ⟨rfl, trivial, rfl⟩

theorem trace {n : Node} :
    Matches K B (Eval.trace n) (Eval.trace n) (Steady (fun _ => True) B) := by
  refine (read (G := fun _ => True) (fun _ => rfl) fun _ _ _ => trivial).andThen fun b _ => ?_
  split
  · exact record
  · exact pure ⟨rfl, trivial, rfl⟩

theorem declare {name : String} :
    Matches K B (Eval.declare name) (Eval.declare name) (Steady (fun _ => True) B) := by
  refine change (fun s => ?_) (fun _ => Environment.bare_declare) fun _ hs => ⟨hs.declare, trivial⟩
  simp [State.unmarked, Environment.declare_unmarked]

theorem define {name : String} (ho : K.object o) :
    Matches K B (Eval.define name o) (Eval.define name o) (Steady (fun _ => True) B) := by
  refine modify (fun s => ?_) (fun _ => Environment.bare_define) fun s hs => ?_
  · simp [State.unmarked, Environment.define_unmarked]
  · exact hs.declare.assign ho

theorem assign {p : Slot} (ho : K.object o) :
    Matches K B (modifyBindings fun e s => e.assign s p o)
      (modifyBindings fun e s => e.assign s p o)
      (Steady (fun _ => True) B) := by
  refine modify (fun s => ?_) (fun _ => Environment.bare_assign) fun s hs => hs.assign ho
  simp [State.unmarked, Environment.assign_unmarked]

theorem functionObject {d : Decl} (hd : K.decl d) :
    Matches K B (Eval.functionObject d) (Eval.functionObject d) (Steady K.object B) := by
  refine (read (G := fun x => ∀ o, x = some o → K.object o) (fun _ => rfl)
    fun _ _ hs o => hs.memo d o hd).andThen fun x hx => ?_
  cases x with
  | some o => exact pure ⟨rfl, hx o rfl, rfl⟩
  | none =>
    have hv : K.value (.atom (.function d)) :=
      ⟨by simp [Value.elements], fun a ha e he => by cases ha; cases he; exact hd⟩
    refine (alloc hv).andThen fun o ho => ?_
    refine (modify (g := fun s => { s with functions := (d.id, o) :: s.functions }) (fun _ => rfl)
      (fun _ => rfl) fun s hs => ?_).andThen fun _ _ => pure ⟨rfl, ho, rfl⟩
    refine ⟨hs.var, hs.scope, hs.frame, hs.inside, fun e p he hp => ?_, hs.fresh⟩
    simp only [List.lookup_cons] at hp
    split at hp
    · cases hp
      exact ho
    · exact hs.memo e p he hp

/-! ### Builtins -/

theorem writeAll {os : List ObjectId} {n : Nat} (ho : ∀ o ∈ os, K.object o) :
    Matches K B (Eval.writeAll os n) (Eval.writeAll os n) (Steady (fun _ => True) B) := by
  induction os generalizing n with
  | nil => exact pure ⟨rfl, trivial, rfl⟩
  | cons o os ih =>
    refine (textOf (ho o (by simp))).andThen fun text _ => ?_
    exact write.andThen fun _ _ => ih fun p hp => ho p (by simp [hp])

theorem textsOf {os : List ObjectId} (ho : ∀ o ∈ os, K.object o) :
    Matches K B (Eval.textsOf os) (Eval.textsOf os) (Steady (fun _ => True) B) := by
  induction os with
  | nil => exact pure ⟨rfl, trivial, rfl⟩
  | cons o os ih =>
    refine (textOf (ho o (by simp))).andThen fun text _ => ?_
    exact (ih fun p hp => ho p (by simp [hp])).andThen fun _ _ => pure ⟨rfl, trivial, rfl⟩

variable {args : List ObjectId} {span : Option Span}

theorem render (ho : ∀ o ∈ args, K.object o) :
    Matches K B (Eval.render args span) (Eval.render args span) (Steady (fun _ => True) B) := by
  cases args with
  | nil => exact raise
  | cons template rest =>
    refine (valueOf (ho template (by simp))).andThen fun v _ => ?_
    split
    · refine (textsOf fun p hp => ho p ?_).andThen fun texts _ => ?_
      · exact List.mem_cons_of_mem _ (List.mem_of_mem_take hp)
      · split
        · exact pure ⟨rfl, trivial, rfl⟩
        · exact raise
    · exact raise

theorem append (ho : ∀ o ∈ args, K.object o) :
    Matches K B (Eval.append args span) (Eval.append args span) (Steady K.object B) := by
  unfold Eval.append
  split
  · next target item items =>
    have htarget := ho target (by simp)
    refine (copyAll fun p hp => ho p (by simp [List.mem_cons.mp hp])).andThen
      fun copies hcopies => ?_
    refine (valueOf htarget).andThen fun v hv => ?_
    split
    · next es =>
      have hlonger : K.value (.vector (es ++ copies)) := by
        refine ⟨fun e he => ?_, nofun⟩
        obtain he | he := Array.mem_append.mp he
        · exact hv.1 e he
        · exact hcopies e he
      exact (setValue hlonger).andThen fun _ _ => copy htarget
    · exact raise
  · exact raise

theorem rangeVector (ho : K.object o) :
    Matches K B (Eval.rangeVector o span) (Eval.rangeVector o span) (Steady K.object B) := by
  refine (valueOf ho).andThen fun v _ => ?_
  split
  · split
    · refine build (Tree.everyOf_iff.mpr fun t ht => ?_)
      obtain ⟨i, -, rfl⟩ := List.mem_map.mp ht
      exact nofun
    · exact raise
  · exact raise

theorem mapM {f : ObjectId → Eval α} {G : α → Prop}
    (hf : ∀ o ∈ args, Matches K B (f o) (f o) (Steady G B)) :
    Matches K B (args.mapM f) (args.mapM f) (Steady (fun as => ∀ a ∈ as, G a) B) := by
  induction args with
  | nil => exact pure ⟨rfl, by simp, rfl⟩
  | cons o os ih =>
    simp only [List.mapM_cons]
    refine (hf o (by simp)).andThen fun a ha => ?_
    refine (ih fun p hp => hf p (by simp [hp])).andThen fun as has => ?_
    exact pure ⟨rfl, List.forall_mem_cons.mpr ⟨ha, has⟩, rfl⟩

theorem applyPrimitive {p : Primitive} (ho : ∀ o ∈ args, K.object o) :
    Matches K B (Eval.applyPrimitive p args span) (Eval.applyPrimitive p args span)
      (Steady K.object B) := by
  have hint : ∀ n : Int64, Matches K B (Eval.allocAtom (.int n)) (Eval.allocAtom (.int n))
      (Steady K.object B) := fun n => allocAtom nofun
  cases p with
  | print => exact (writeAll ho).andThen fun _ _ => hint _
  | println => exact (writeAll ho).andThen fun _ _ => write.andThen fun _ _ => hint _
  | printf => exact (render ho).andThen fun _ _ => write.andThen fun _ _ => hint _
  | format => exact (render ho).andThen fun _ _ => allocAtom nofun
  | abs | double =>
    cases args with
    | nil => exact raise
    | cons o os =>
      refine (valueOf (ho o (by simp))).andThen fun v _ => ?_
      split
      · exact (ofExcept (G := fun _ => True) fun _ _ => trivial).andThen fun _ _ => hint _
      · exact raise
  | append => exact append ho
  | vector =>
    cases args with
    | nil => exact raise
    | cons o os => exact rangeVector (ho o (by simp))
  | identity =>
    cases args with
    | nil => exact allocNone
    | cons o os => exact pure ⟨rfl, ho o (by simp), rfl⟩
  | count => exact hint _
  | kinds =>
    refine (mapM (G := fun _ => True) fun o hm => ?_).andThen fun _ _ => allocAtom nofun
    exact (valueOf (ho o hm)).andThen fun _ _ => pure ⟨rfl, trivial, rfl⟩
  | bindings =>
    refine (mapM (G := K.tree) fun o _ => ?_).andThen fun ts hts =>
      build (Tree.everyOf_iff.mpr hts)
    exact read (fun _ => rfl) fun _ _ _ => nofun
  | length =>
    cases args with
    | nil => exact allocNone
    | cons o os =>
      refine (valueOf (ho o (by simp))).andThen fun v _ => ?_
      split
      · exact hint _
      · exact allocNone
  | interrupt =>
    refine (outside (g := fun s => { s with isInterrupted := true }) (fun _ => rfl) ?_).andThen
      fun _ _ => allocNone
    exact fun _ => ⟨rfl, rfl, rfl⟩
  | fail kind hint => exact raise

theorem callBuiltin {b : Builtin} (ho : ∀ o ∈ args, K.object o) :
    Matches K B (Eval.callBuiltin b args span) (Eval.callBuiltin b args span)
      (Steady K.object B) := by
  refine (read (G := fun _ => True) (fun _ => rfl) fun _ _ _ => trivial).andThen fun kinds _ => ?_
  exact (ofExcept (G := fun _ => True) fun _ _ => trivial).andThen fun _ _ => applyPrimitive ho

end Matches
end Structured
end Scripting
