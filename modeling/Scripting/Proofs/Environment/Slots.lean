import Mathlib.Data.List.Basic
import Mathlib.Tactic.Common
import Scripting.Proofs.Environment.Marks
import Scripting.Proofs.Store.Contents

/-! The objects that variables are bound to, counted, and the count that each object keeps of them.
A checked release fails where the count would go below zero. -/
namespace Scripting

namespace Scope

/-- The objects bound to the variables of a scope. -/
def objects (scope : Scope) : List ObjectId := scope.vars.toList.flatMap (·.value.toList)

end Scope

namespace Store

variable {s t : Store} {o q : ObjectId} {scope : Scope}

/-- Releases an object, unless no variable is known to be bound to it. -/
def release? (s : Store) (o : ObjectId) : Option Store :=
  if 0 < s.bindings o then some (s.release o) else none

def releaseList? : Store → List ObjectId → Option Store
  | s, [] => some s
  | s, o :: os => (s.release? o).bind (releaseList? · os)

theorem release?_eq_some (h : 0 < s.bindings o) : s.release? o = some (s.release o) := if_pos h

/-- Objects with a high enough count can all be released. -/
theorem releaseList?_of_le {os : List ObjectId} (h : ∀ o, os.count o ≤ s.bindings o) :
    s.releaseList? os = some (os.foldl Store.release s) := by
  induction os generalizing s with
  | nil => rfl
  | cons o os ih =>
    have hpos : 0 < s.bindings o := by
      have := h o
      simp only [List.count_cons_self] at this
      omega
    rw [releaseList?, release?_eq_some hpos]
    refine ih fun q => ?_
    have hq := h q
    rw [bindings_release]
    by_cases hqo : q = o
    · subst hqo
      simp only [List.count_cons_self, if_true] at hq ⊢
      omega
    · rw [List.count_cons_of_ne (Ne.symm hqo)] at hq
      simpa [hqo] using hq

theorem bindings_foldl_release {os : List ObjectId} :
    (os.foldl Store.release s).bindings q = s.bindings q - os.count q := by
  induction os generalizing s with
  | nil => simp
  | cons o os ih =>
    rw [List.foldl_cons, ih, bindings_release]
    by_cases hqo : q = o
    · subst hqo
      simp only [if_true, List.count_cons_self]
      omega
    · simp [hqo, List.count_cons_of_ne (Ne.symm hqo)]

theorem has_foldl_release {os : List ObjectId} : (os.foldl Store.release s).Has q ↔ s.Has q := by
  induction os generalizing s with
  | nil => rfl
  | cons o os ih => rw [List.foldl_cons, ih, has_release]

theorem value_foldl_release {os : List ObjectId} :
    (os.foldl Store.release s).value q = s.value q := by
  induction os generalizing s with
  | nil => rfl
  | cons o os ih => rw [List.foldl_cons, ih, value_release]

theorem next_foldl_release {os : List ObjectId} : (os.foldl Store.release s).next = s.next := by
  induction os generalizing s with
  | nil => rfl
  | cons o os ih => rw [List.foldl_cons, ih, next_release]

theorem releaseAll_eq : s.releaseAll scope = scope.objects.foldl Store.release s := by
  have hlist : ∀ (vars : List Variable) (s : Store),
      vars.foldl (fun s v => v.value.elim s s.release) s =
        (vars.flatMap (·.value.toList)).foldl Store.release s := by
    intro vars
    induction vars with
    | nil => intro s; rfl
    | cons v vars ih =>
      intro s
      rw [List.foldl_cons, List.flatMap_cons, List.foldl_append, ih]
      cases v.value <;> rfl
  rw [releaseAll, ← Array.foldl_toList, hlist, Scope.objects]

end Store

namespace Environment

variable {e : Environment} {s : Store} {p : Slot} {o q : ObjectId} {name : String} {i : Nat}

/-- The objects in the variables of all open scopes. -/
def slots (e : Environment) : List ObjectId := e.scopes.toList.flatMap Scope.objects

/-- The slots are the variables that are bound. -/
theorem mem_slots_iff : q ∈ e.slots ↔ ∃ p, (e.variableAt? p).bind (·.value) = some q := by
  simp only [slots, Scope.objects, List.mem_flatMap, Array.mem_toList_iff, Option.mem_toList,
    Array.mem_iff_getElem?, variableAt?, Option.bind_eq_some_iff]
  constructor
  · rintro ⟨scope, ⟨i, hi⟩, v, ⟨j, hj⟩, hv⟩
    exact ⟨⟨i, j⟩, v, ⟨scope, hi, hj⟩, hv⟩
  · rintro ⟨p, v, ⟨scope, hi, hj⟩, hv⟩
    exact ⟨scope, ⟨p.scope, hi⟩, v, ⟨p.index, hj⟩, hv⟩

/-- The objects that the stacks hold outside variables. -/
def parked (e : Environment) : List ObjectId :=
  e.scopes.toList.flatMap (·.last.toList) ++ e.frames.toList.flatMap (·.result.toList) ++
    e.loops.toList.flatMap (·.result.toList)

theorem count_roots : e.roots.count q = e.slots.count q + e.parked.count q := by
  have hscopes : ∀ l : List Scope,
      (l.flatMap fun x => x.objects ++ x.last.toList).count q =
        (l.flatMap Scope.objects).count q + (l.flatMap (·.last.toList)).count q := by
    intro l
    induction l with
    | nil => rfl
    | cons x l ih =>
      simp only [List.flatMap_cons, List.count_append, ih]
      omega
  simp only [roots, List.filterMap_eq_flatMap_toList, List.count_append, slots, parked]
  have := hscopes e.scopes.toList
  simp only [Scope.objects] at this ⊢
  omega

theorem mem_roots_iff : q ∈ e.roots ↔ q ∈ e.slots ∨ q ∈ e.parked := by
  rw [← List.count_pos_iff, ← List.count_pos_iff, ← List.count_pos_iff, count_roots]
  omega

/-- Every object's count is the number of variables bound to it. -/
def Exact (e : Environment) (s : Store) : Prop := ∀ o, s.bindings o = e.slots.count o

/-- Binds a variable as `assign` does, with a checked release. -/
def assign? (e : Environment) (s : Store) (p : Slot) (o : ObjectId) :
    Option (Environment × Store) :=
  match e.variableAt? p with
  | none => some (e, s)
  | some v => ((s.retain o).releaseList? v.value.toList).map ((e.assign s p o).1, ·)

/-- Closes the innermost scope as `leave` does, with checked releases. -/
def leave? (e : Environment) (s : Store) : Option (Environment × Store) :=
  if 1 < e.scopes.size then (s.releaseList? e.current.objects).map ((e.leave s).1, ·)
  else some (e, s)

theorem slots_congr {f : Environment}
    (h : f.scopes.map Scope.objects = e.scopes.map Scope.objects) :
    f.slots = e.slots := by
  have hlist := congrArg Array.toList h
  simp only [Array.toList_map] at hlist
  rw [slots, slots, List.flatMap_def, List.flatMap_def, hlist]

/-- A change of a scope that keeps its variables' values. -/
theorem slots_modifyScope {f : Scope → Scope} (hf : ∀ x, (f x).objects = x.objects) :
    (e.modifyScope i f).slots = e.slots := by
  refine slots_congr ?_
  ext j hj hj' : 1
  · simp [modifyScope]
  · simp only [modifyScope, Array.getElem_map, Array.getElem_modify]
    split <;> simp [hf]

theorem slots_enter {kind : ScopeKind} {functions : List Decl} :
    (e.enter kind functions).slots = e.slots := by
  simp [slots, enter, Scope.objects]

theorem slots_declare : (e.declare name).2.slots = e.slots := by
  unfold declare
  split
  · rfl
  · exact slots_modifyScope fun x => by simp [Scope.objects]

theorem slots_skipFrom : (e.skipFrom i).slots = e.slots := by
  refine slots_congr ?_
  ext j hj hj' : 1
  · simp [skipFrom]
  · simp only [skipFrom, Array.getElem_map, Array.getElem_mapIdx]
    split <;> rfl

theorem slots_leaveFunction : (Eval.leaveFunction e o).slots = e.slots := by
  unfold Eval.leaveFunction
  split
  · rfl
  · exact slots_skipFrom

theorem slots_leaveLoop {r : Option ObjectId} : (Eval.leaveLoop e r).slots = e.slots := by
  unfold Eval.leaveLoop
  split
  · rfl
  · rw [slots_skipFrom, modifyLoop]
    split <;> rfl

theorem count_slots_assign {v : Variable} (h : e.variableAt? p = some v) :
    (e.assign s p o).1.slots.count q + v.value.toList.count q = e.slots.count q + [o].count q := by
  obtain ⟨x, hx, hv⟩ := Option.bind_eq_some_iff.mp h
  have hvars := count_flatMap_modify (fun v : Variable => v.value.toList)
    (fun v => { v with value := some o }) q hv
  have hscopes := count_flatMap_modify Scope.objects
    (fun x => { x with vars := x.vars.modify p.index ({ · with value := some o }) }) q hx
  simp only [assign, h, slots, modifyScope, Scope.objects] at hscopes hvars ⊢
  simp only [Option.toList_some] at hvars
  omega

/-- A variable takes at most the object it is bound to. -/
theorem count_slots_assign_le :
    (e.assign s p o).1.slots.count q ≤ e.slots.count q + [o].count q := by
  cases hv : e.variableAt? p with
  | none =>
    simp only [assign, hv]
    omega
  | some v =>
    have := count_slots_assign (s := s) (o := o) (q := q) hv
    omega

theorem snd_assign {v : Variable} (h : e.variableAt? p = some v) :
    (e.assign s p o).2 = v.value.toList.foldl Store.release (s.retain o) := by
  simp only [assign, h]
  cases v.value <;> rfl

theorem snd_leave (h : 1 < e.scopes.size) :
    (e.leave s).2 = e.current.objects.foldl Store.release s := by
  rw [← Store.releaseAll_eq]
  obtain ⟨ss, x, hx⟩ := Array.exists_push_of_size_pos (show 0 < e.scopes.size by omega)
  have hsize : 0 < ss.size := by simpa [hx] using h
  simp [leave, current, hx, hsize]

theorem slots_leave (h : 1 < e.scopes.size) :
    e.slots = (e.leave s).1.slots ++ e.current.objects := by
  obtain ⟨ss, x, hx⟩ := Array.exists_push_of_size_pos (show 0 < e.scopes.size by omega)
  rw [leave_fst, if_pos h]
  simp [slots, current, hx]

theorem leave_of_not_lt (h : ¬ 1 < e.scopes.size) : e.leave s = (e, s) := by
  unfold leave
  split
  · rw [if_neg h]
  · rfl

/-- What a change of bindings leaves alone in the store. -/
theorem store_assign :
    (∀ q, (e.assign s p o).2.Has q ↔ s.Has q) ∧ (∀ q, (e.assign s p o).2.value q = s.value q) ∧
      (e.assign s p o).2.contained = s.contained := by
  cases hv : e.variableAt? p with
  | none => simp [assign, hv]
  | some v =>
    rw [snd_assign hv]
    refine ⟨fun q => ?_, fun q => ?_, ?_⟩
    · rw [Store.has_foldl_release, Store.has_retain]
    · rw [Store.value_foldl_release, Store.value_retain]
    · rw [Store.contained_foldl_release, Store.contained_retain]

theorem store_leave :
    (∀ q, (e.leave s).2.Has q ↔ s.Has q) ∧ (∀ q, (e.leave s).2.value q = s.value q) ∧
      (e.leave s).2.contained = s.contained := by
  by_cases h : 1 < e.scopes.size
  · rw [snd_leave h]
    exact ⟨fun q => Store.has_foldl_release, fun q => Store.value_foldl_release,
      Store.contained_foldl_release⟩
  · rw [leave_of_not_lt h]
    exact ⟨fun _ => Iff.rfl, fun _ => rfl, rfl⟩

theorem next_assign : (e.assign s p o).2.next = s.next := by
  cases hv : e.variableAt? p with
  | none => simp [assign, hv]
  | some v => rw [snd_assign hv, Store.next_foldl_release, Store.next_retain]

theorem next_leave : (e.leave s).2.next = s.next := by
  by_cases h : 1 < e.scopes.size
  · rw [snd_leave h, Store.next_foldl_release]
  · rw [leave_of_not_lt h]

theorem count_slots_leave_le : (e.leave s).1.slots.count q ≤ e.slots.count q := by
  by_cases h : 1 < e.scopes.size
  · rw [slots_leave (s := s) h, List.count_append]
    omega
  · exact Nat.le_of_eq (by rw [leave_of_not_lt h])

theorem Exact.congr {f : Environment} (h : e.Exact s) (hslots : f.slots = e.slots) : f.Exact s :=
  fun q => hslots ▸ h q

/-- A variable can be bound to any object that is there, and the release of what it was bound to
does not fail. -/
theorem Exact.assign (h : e.Exact s) (ho : s.Has o) :
    e.assign? s p o = some (e.assign s p o) ∧ (e.assign s p o).1.Exact (e.assign s p o).2 := by
  cases hv : e.variableAt? p with
  | none => simpa [assign?, Environment.assign, hv] using h
  | some v =>
    have hcount := fun q => count_slots_assign (s := s) (o := o) (q := q) hv
    have hretain : ∀ q, (s.retain o).bindings q = e.slots.count q + [o].count q := by
      intro q
      rw [Store.bindings_retain ho, h q]
      by_cases hq : q = o
      · simp [hq]
      · simp [hq, Ne.symm hq]
    refine ⟨?_, fun q => ?_⟩
    · have hle : ∀ q, v.value.toList.count q ≤ (s.retain o).bindings q := by
        intro q
        have := hcount q
        rw [hretain]
        omega
      simp only [assign?, hv, Store.releaseList?_of_le hle, Option.map_some, ← snd_assign hv]
    · have := hcount q
      rw [snd_assign hv, Store.bindings_foldl_release, hretain]
      omega

/-- A scope can be closed, and the releases of its variables do not fail. -/
theorem Exact.leave (h : e.Exact s) :
    e.leave? s = some (e.leave s) ∧ (e.leave s).1.Exact (e.leave s).2 := by
  by_cases hsize : 1 < e.scopes.size
  · have hslots : ∀ q, e.slots.count q =
        (e.leave s).1.slots.count q + e.current.objects.count q := by
      intro q
      rw [← List.count_append, ← slots_leave hsize]
    refine ⟨?_, fun q => ?_⟩
    · have hle : ∀ q, e.current.objects.count q ≤ s.bindings q := by
        intro q
        rw [h q, hslots]
        omega
      rw [leave?, if_pos hsize, Store.releaseList?_of_le hle, ← snd_leave hsize]
      rfl
    · have := hslots q
      rw [snd_leave hsize, Store.bindings_foldl_release, h q]
      omega
  · rw [leave?, if_neg hsize, leave_of_not_lt hsize]
    exact ⟨rfl, h⟩

/-! ### Outside variables -/

theorem parked_congr {f : Environment} (hs : f.scopes.map Scope.last = e.scopes.map Scope.last)
    (hf : f.frames.map Frame.result = e.frames.map Frame.result)
    (hl : f.loops.map LoopState.result = e.loops.map LoopState.result) : f.parked = e.parked := by
  have hflat : ∀ {α : Type} {g : α → Option ObjectId} {xs ys : Array α}, xs.map g = ys.map g →
      xs.toList.flatMap (fun x => (g x).toList) = ys.toList.flatMap fun x => (g x).toList := by
    intro α g xs ys h
    have hlist := congrArg Array.toList h
    simp only [Array.toList_map] at hlist
    have hmap : ∀ l : List α, l.flatMap (fun x => (g x).toList) = (l.map g).flatMap Option.toList :=
      fun l => by simp [List.flatMap_map]
    rw [hmap, hmap, hlist]
  simp only [parked, hflat hs, hflat hf, hflat hl]

/-- A change of a scope that keeps the value of its latest statement. -/
theorem parked_modifyScope {f : Scope → Scope} (hf : ∀ x, (f x).last = x.last) :
    (e.modifyScope i f).parked = e.parked := by
  refine parked_congr ?_ rfl rfl
  ext j hj hj' : 1
  · simp [modifyScope]
  · simp only [modifyScope, Array.getElem_map, Array.getElem_modify]
    split <;> simp [hf]

theorem parked_enter {kind : ScopeKind} {functions : List Decl} :
    (e.enter kind functions).parked = e.parked := by
  simp [parked, enter]

theorem parked_declare : (e.declare name).2.parked = e.parked := by
  unfold declare
  split
  · rfl
  · exact parked_modifyScope fun _ => rfl

theorem parked_assign : (e.assign s p o).1.parked = e.parked := by
  unfold assign
  split
  · rfl
  · exact parked_modifyScope fun _ => rfl

theorem parked_skipFrom : (e.skipFrom i).parked = e.parked := by
  refine parked_congr ?_ rfl rfl
  ext j hj hj' : 1
  · simp [skipFrom]
  · simp only [skipFrom, Array.getElem_map, Array.getElem_mapIdx]
    split <;> rfl

theorem parked_breakLoopsFrom : (e.breakLoopsFrom i).parked = e.parked := by
  refine parked_congr rfl rfl ?_
  ext j hj hj' : 1
  · simp [breakLoopsFrom]
  · simp only [breakLoopsFrom, Array.getElem_map, Array.getElem_mapIdx]
    split <;> rfl

theorem parked_pushFrame {d : Decl} : (e.pushFrame d).parked = e.parked := by
  simp [parked, pushFrame]

theorem parked_pushLoop : (e.pushLoop i).parked = e.parked := by
  simp [parked, pushLoop]

theorem count_parked_leave : (e.leave s).1.parked.count q ≤ e.parked.count q := by
  rw [leave_fst]
  split
  · next h =>
    obtain ⟨ss, x, hx⟩ := Array.exists_push_of_size_pos (show 0 < e.scopes.size by omega)
    simp only [parked, hx, Array.pop_push, Array.toList_push, List.flatMap_append,
      List.count_append]
    omega
  · omega

/-- What the innermost call was to return is no longer parked when the call is closed. -/
theorem count_parked_popFrame :
    e.popFrame.2.parked.count q + (e.frames.back?.bind (·.result)).toList.count q =
      e.parked.count q := by
  simp only [parked, popFrame, List.count_append]
  obtain hempty | hpos := Nat.eq_zero_or_pos e.frames.size
  · simp [Array.eq_empty_of_size_eq_zero hempty]
  · obtain ⟨ss, x, hx⟩ := Array.exists_push_of_size_pos hpos
    simp only [hx, Array.pop_push, Array.toList_push, List.flatMap_append, List.count_append,
      Array.back?_push, Option.bind_some, List.flatMap_cons, List.flatMap_nil, List.append_nil]
    omega

theorem count_parked_popLoop :
    e.popLoop.2.parked.count q + (e.loops.back?.bind (·.result)).toList.count q =
      e.parked.count q := by
  simp only [parked, popLoop, List.count_append]
  obtain hempty | hpos := Nat.eq_zero_or_pos e.loops.size
  · simp [Array.eq_empty_of_size_eq_zero hempty]
  · obtain ⟨ss, x, hx⟩ := Array.exists_push_of_size_pos hpos
    simp only [hx, Array.pop_push, Array.toList_push, List.flatMap_append, List.count_append,
      Array.back?_push, Option.bind_some, List.flatMap_cons, List.flatMap_nil, List.append_nil]
    omega

/-- A change of a scope parks no more than the value it puts there. -/
theorem count_parked_modifyScope_le {f : Scope → Scope} {k : Nat}
    (hf : ∀ x, (f x).last.toList.count q ≤ x.last.toList.count q + k) :
    (e.modifyScope i f).parked.count q ≤ e.parked.count q + k := by
  have := count_flatMap_modify_le (l := e.scopes) (i := i) (f := fun x : Scope => x.last.toList) hf
  simp only [parked, modifyScope, List.count_append] at this ⊢
  omega

theorem count_parked_takeLast :
    (e.modifyScope i ({ · with last := none })).parked.count q +
      (e.scopes[i]?.bind (·.last)).toList.count q = e.parked.count q := by
  simp only [parked, modifyScope, List.count_append]
  cases hx : e.scopes[i]? with
  | none => simp [modify_of_getElem?_eq_none hx]
  | some x =>
    have := count_flatMap_modify (fun x : Scope => x.last.toList) ({ · with last := none }) q hx
    simp only [Option.bind_some, Option.toList_none, List.count_nil] at this ⊢
    omega

theorem count_parked_leaveFunction :
    (Eval.leaveFunction e o).parked.count q ≤ e.parked.count q + [o].count q := by
  unfold Eval.leaveFunction
  split
  · omega
  · next f hf =>
    rw [parked_breakLoopsFrom, parked_skipFrom]
    have := count_flatMap_modify_le (l := e.frames) (i := e.frames.size - 1)
      (k := [o].count q) (q := q)
      (f := fun x : Frame => x.result.toList)
        (g := fun x => { x with result := some o, isReturned := true })
      fun x => by simp
    simp only [parked, modifyFrame, List.count_append] at this ⊢
    omega

theorem count_parked_leaveLoop {r : Option ObjectId} :
    (Eval.leaveLoop e r).parked.count q ≤ e.parked.count q + r.toList.count q := by
  unfold Eval.leaveLoop
  split
  · omega
  · next l hl =>
    rw [parked_skipFrom, modifyLoop]
    split
    · have := count_flatMap_modify_le (l := e.loops) (i := e.loops.size - 1)
        (k := r.toList.count q) (q := q)
        (f := fun x : LoopState => x.result.toList)
          (g := fun x => { x with result := r, isBroken := true })
        fun x => by simp
      simp only [parked, List.count_append] at this ⊢
      omega
    · omega

end Environment
end Scripting
