import Mathlib.Data.List.Induction
import Mathlib.Tactic.Common
import Scripting.Proofs.Eval.Aliasing
import Scripting.Proofs.Host.Moment

/-! Values of scripts do not share parts: different paths from variables lead to different objects,
except to functions. -/
namespace Scripting

/-- An object that is listed once is listed in one place. -/
theorem eq_of_count_flatMap_le_one {α : Type} {l : List α} {f : α → List ObjectId} {o : ObjectId}
    {i j : Nat} {x y : α} (h : (l.flatMap f).count o ≤ 1) (hi : l[i]? = some x) (hx : o ∈ f x)
    (hj : l[j]? = some y) (hy : o ∈ f y) : i = j := by
  induction l generalizing i j with
  | nil => simp at hi
  | cons z l ih =>
    rw [List.flatMap_cons, List.count_append] at h
    have hrest : ∀ {k w}, l[k]? = some w → o ∈ f w → 0 < (l.flatMap f).count o := fun hk hw =>
      List.count_pos_iff.mpr (List.mem_flatMap.mpr ⟨_, List.mem_of_getElem? hk, hw⟩)
    cases i with
    | zero =>
      cases j with
      | zero => rfl
      | succ j =>
        simp only [List.getElem?_cons_zero, Option.some.injEq, List.getElem?_cons_succ] at hi hj
        have hfirst := List.count_pos_iff.mpr (hi ▸ hx)
        have := hrest hj hy
        omega
    | succ i =>
      simp only [List.getElem?_cons_succ] at hi
      cases j with
      | zero =>
        simp only [List.getElem?_cons_zero, Option.some.injEq] at hj
        have hfirst := List.count_pos_iff.mpr (hj ▸ hy)
        have := hrest hi hx
        omega
      | succ j =>
        rw [ih (by omega) hi (by simpa using hj)]

theorem eq_of_count_le_one {l : List ObjectId} {o : ObjectId} {i j : Nat} (h : l.count o ≤ 1)
    (hi : l[i]? = some o) (hj : l[j]? = some o) : i = j :=
  eq_of_count_flatMap_le_one (f := ([·])) (by simpa using h) hi (by simp) hj (by simp)

theorem count_le_count_flatMap {α : Type} {l : List α} {f : α → List ObjectId}
    {o : ObjectId} {i : Nat} {x : α} (hi : l[i]? = some x) :
    (f x).count o ≤ (l.flatMap f).count o :=
  (List.sublist_flatten_of_mem (List.mem_map_of_mem (List.mem_of_getElem? hi))).count_le o

/-- An object that variables hold once is in one slot. -/
theorem Environment.slot_unique {e : Environment} {o : ObjectId} {p q : Slot}
    (h : e.slots.count o ≤ 1) (hp : (e.variableAt? p).bind (·.value) = some o)
    (hq : (e.variableAt? q).bind (·.value) = some o) :
    p = q := by
  obtain ⟨v, hv, hvo⟩ := Option.bind_eq_some_iff.mp hp
  obtain ⟨w, hw, hwo⟩ := Option.bind_eq_some_iff.mp hq
  obtain ⟨x, hx, hxv⟩ := Option.bind_eq_some_iff.mp hv
  obtain ⟨y, hy, hyw⟩ := Option.bind_eq_some_iff.mp hw
  have hobject : ∀ {x : Scope} {i : Nat} {v : Variable}, x.vars[i]? = some v → v.value = some o →
      o ∈ x.objects := fun hi hv => List.mem_flatMap.mpr
    ⟨_, by simpa using Array.mem_of_getElem? hi, by simp [hv]⟩
  rw [← Array.getElem?_toList] at hx hy hxv hyw
  have hscope : p.scope = q.scope := by
    refine eq_of_count_flatMap_le_one h hx ?_ hy ?_
    · exact hobject (by simpa using hxv) hvo
    · exact hobject (by simpa using hyw) hwo
  have hxy : x = y := Option.some.inj (hx.symm.trans (hscope ▸ hy))
  subst hxy
  have hcount : x.objects.count o ≤ 1 := Nat.le_trans (count_le_count_flatMap hx) h
  have hindex : p.index = q.index :=
    eq_of_count_flatMap_le_one (f := fun v : Variable => v.value.toList) hcount hxv (by simp [hvo])
      hyw (by simp [hwo])
  cases p
  cases q
  simp_all

namespace Store

variable {s : Store} {o p q : ObjectId} {i j : Nat}

/-- An object that others contain once is in one place of one of them. -/
theorem element_unique (h : s.contained.count o ≤ 1) (hp : (s.value p).elements[i]? = some o)
    (hq : (s.value q).elements[j]? = some o) : p = q ∧ i = j := by
  have hentry : ∀ {c : ObjectId} {k : Nat}, (s.value c).elements[k]? = some o →
      ∃ x, s.objects.toList[c]? = some x ∧ inside x = (s.value c).elements.toList := by
    intro c k hk
    obtain ⟨x, hx⟩ := objects_of_has (has_of_mem_elements (Array.mem_of_getElem? hk))
    exact ⟨some x, by simpa using hx, by simp [inside, value, get?, hx]⟩
  have hmem : ∀ {c : ObjectId} {k : Nat}, (s.value c).elements[k]? = some o →
      o ∈ (s.value c).elements.toList :=
    fun hk => by simpa using Array.mem_of_getElem? hk
  obtain ⟨x, hx, hxin⟩ := hentry hp
  obtain ⟨y, hy, hyin⟩ := hentry hq
  rw [contained_eq] at h
  have hsame : p = q := eq_of_count_flatMap_le_one h hx (hxin ▸ hmem hp) hy (hyin ▸ hmem hq)
  subst hsame
  refine ⟨rfl, eq_of_count_le_one (l := (s.value p).elements.toList) ?_ (by simpa using hp)
    (by simpa using hq)⟩
  rw [← hxin]
  exact Nat.le_trans (count_le_count_flatMap hx) h

theorem count_element (h : (s.value p).elements[i]? = some o) : 0 < s.contained.count o := by
  have hin := Array.mem_of_getElem? h
  exact List.count_pos_iff.mpr (mem_contained_iff.mpr ⟨p, has_of_mem_elements hin, hin⟩)

/-- The object at the end of a way through tuples and vectors. -/
def follow (s : Store) : ObjectId → List Nat → Option ObjectId
  | o, [] => some o
  | o, i :: is => (s.value o).elements[i]?.bind (s.follow · is)

theorem follow_append {is js : List Nat} :
    s.follow o (is ++ js) = (s.follow o is).bind (s.follow · js) := by
  induction is generalizing o with
  | nil => rfl
  | cons i is ih =>
    simp only [List.cons_append, follow]
    cases (s.value o).elements[i]? with
    | none => rfl
    | some p => exact ih

theorem not_isFunction_of_element (h : (s.value p).elements[i]? = some o) : ¬ s.IsFunction p := by
  rintro ⟨d, hd⟩
  simp [hd, Value.elements] at h

end Store

/-- Where a path starts: at a variable, or at an object that the host was given. -/
inductive Root where
  | slot (p : Slot)
  | given (i : Nat)

namespace Config

variable {c : Config} {o : ObjectId} {r t : Root} {is js : List Nat}

def root? (c : Config) : Root → Option ObjectId
  | .slot p => (c.env.variableAt? p).bind (·.value)
  | .given i => c.temps[i]?

/-- The object that a path leads to. -/
def at? (c : Config) (r : Root) (is : List Nat) : Option ObjectId :=
  (c.root? r).bind (c.store.follow · is)

theorem count_root (h : c.root? r = some o) : 0 < c.temps.count o + c.env.slots.count o := by
  cases r with
  | slot p =>
    have := List.count_pos_iff.mpr (Environment.mem_slots_iff.mpr ⟨p, h⟩)
    omega
  | given i =>
    have := List.count_pos_iff.mpr (List.mem_of_getElem? h)
    omega

theorem root_unique (h : c.temps.count o + c.env.slots.count o ≤ 1) (hr : c.root? r = some o)
    (hr' : c.root? t = some o) : r = t := by
  cases r with
  | slot p =>
    have hp := List.count_pos_iff.mpr (Environment.mem_slots_iff.mpr ⟨p, hr⟩)
    cases t with
    | slot q => exact congrArg Root.slot (Environment.slot_unique (by omega) hr hr')
    | given j =>
      have := List.count_pos_iff.mpr (List.mem_of_getElem? hr')
      omega
  | given i =>
    have hi := List.count_pos_iff.mpr (List.mem_of_getElem? hr)
    cases t with
    | slot q =>
      have := List.count_pos_iff.mpr (Environment.mem_slots_iff.mpr ⟨q, hr'⟩)
      omega
    | given j => exact congrArg Root.given (eq_of_count_le_one (by omega) hr hr')

theorem at?_concat {i : Nat} (h : c.at? r (is ++ [i]) = some o) :
    ∃ p, c.at? r is = some p ∧ (c.store.value p).elements[i]? = some o := by
  obtain ⟨q, hq, ho⟩ := Option.bind_eq_some_iff.mp h
  rw [Store.follow_append] at ho
  obtain ⟨p, hp, ho⟩ := Option.bind_eq_some_iff.mp ho
  refine ⟨p, Option.bind_eq_some_iff.mpr ⟨q, hq, hp⟩, ?_⟩
  simpa [Store.follow] using ho

theorem at?_nil : c.at? r [] = c.root? r := by simp [at?, Store.follow]

theorem Unshared.held_once (hc : c.Unshared) (ho : ¬ c.store.IsFunction o) :
    c.temps.count o + c.env.slots.count o + c.store.contained.count o ≤ 1 := by
  have hone := (hc.single o).resolve_right ho
  have hsum : c.holdings.count o = c.temps.count o + c.env.slots.count o + c.env.parked.count o +
    c.store.contained.count o := count_holdings c.state c.temps o
  omega

/-- No two paths lead to the same object, except to a function. -/
theorem Unshared.path_unique (hc : c.Unshared) (hr : c.at? r is = some o)
    (hr' : c.at? t js = some o) (ho : ¬ c.store.IsFunction o) : r = t ∧ is = js := by
  -- from the ends of the paths back: the last holder of the object is the same on both
  induction is using List.reverseRecOn generalizing o js with
  | nil =>
    have honce := hc.held_once ho
    rw [at?_nil] at hr
    obtain rfl | ⟨js, j, rfl⟩ := List.eq_nil_or_concat' js
    · rw [at?_nil] at hr'
      exact ⟨root_unique (by omega) hr hr', rfl⟩
    · obtain ⟨q, -, hq⟩ := at?_concat hr'
      have hroot := count_root hr
      have hinside := Store.count_element hq
      omega
  | append_singleton is i ih =>
    have honce := hc.held_once ho
    obtain ⟨p, hp, hi⟩ := at?_concat hr
    obtain rfl | ⟨js, j, rfl⟩ := List.eq_nil_or_concat' js
    · rw [at?_nil] at hr'
      have hroot := count_root hr'
      have hinside := Store.count_element hi
      omega
    · obtain ⟨q, hq, hj⟩ := at?_concat hr'
      obtain ⟨rfl, rfl⟩ := Store.element_unique (by omega) hi hj
      obtain ⟨rfl, rfl⟩ := ih hp hq (Store.not_isFunction_of_element hi)
      exact ⟨rfl, rfl⟩

end Config

namespace Host

/-- A host that asks for evaluations and lets its collectors run, keeps and drops what it gets, and
changes no object. -/
inductive Evaluates (c : EvalContext) : Host → Prop
  | start : Evaluates c (Moment.start c .standard).host
  | eval {h : Host} (hh : Evaluates c h) (n : Node) : Evaluates c ((Host.eval n).run h).2
  | run {h : Host} (hh : Evaluates c h) (n : Node) : Evaluates c ((Host.run n).run h).2
  | keep {h : Host} (hh : Evaluates c h) (label : Option String) (o : ObjectId) :
      Evaluates c ((Host.keep label o).run h).2
  | drop {h : Host} (hh : Evaluates c h) (name : String) : Evaluates c ((Host.drop name).run h).2
  | sweep {h : Host} (hh : Evaluates c h) (which : HeapName) :
      Evaluates c ((Host.sweep which).run h).2
  | pause {h : Host} (hh : Evaluates c h) (which : HeapName) :
      Evaluates c ((Host.pause which).run h).2
  | resume {h : Host} (hh : Evaluates c h) (which : HeapName) :
      Evaluates c ((Host.resume which).run h).2
  | setInterrupt {h : Host} (hh : Evaluates c h) (b : Bool) :
      Evaluates c ((Host.setInterrupt b).run h).2

/-- Between two requests nothing but functions is held twice. -/
structure Clean (h : Host) : Prop where
  sound : Config.Sound ⟨h.state, []⟩
  unshared : Config.Unshared ⟨h.state, []⟩

theorem Clean.steps {h k : Host} {U : List ObjectId} (hh : h.Clean)
    (hs : Steps ⟨h.state, []⟩ ⟨k.state, U ++ []⟩) : k.Clean := by
  have hdrop := hs.trans Steps.dropList
  exact ⟨Steps.sound hdrop hh.sound, hh.unshared.steps hh.sound hdrop⟩

theorem Clean.congr {h k : Host} (hh : h.Clean) (hs : k.state = h.state) : k.Clean :=
  ⟨hs ▸ hh.sound, hs ▸ hh.unshared⟩

theorem clean_start {c : EvalContext} : (Moment.start c .standard).host.Clean := by
  have hsound : Config.Sound ⟨(Moment.start c .standard).host.state, []⟩ := Moment.sound_start
  have hnone : ∀ o, ¬ (Moment.start c .standard).host.store.Has o := fun o ho => nomatch ho
  refine ⟨hsound, fun q => .inl ?_, nofun, fun b hb hoffers => ?_⟩
  · rw [List.count_eq_zero.mpr fun hin => hnone q (hsound.held q hin)]
    exact Nat.zero_le 1
  · obtain hdata | ⟨b', hb', heq⟩ | ⟨o, ho⟩ := hoffers
    · exact hdata
    · cases heq
      have hplain : ∀ b ∈ Builtins.standard.entries, b.primitive ≠ .identity := by decide
      exact hplain b hb' hb
    · cases (Store.value_of_not_has (hnone o)).symm.trans ho

theorem Evaluates.clean {c : EvalContext} {h : Host} (hh : Evaluates c h) : h.Clean := by
  induction hh with
  | start => exact clean_start
  | eval _ n ih => exact ih.steps (steps_eval ih.sound)
  | run _ n ih => exact ih.steps (steps_run ih.sound)
  | keep _ label o ih => exact ih.congr state_keep
  | drop _ name ih => exact ih.congr rfl
  | @sweep h _ which ih =>
    have hroots : ∀ o ∈ [] ++ h.state.roots, o ∈ h.roots := fun o ho => List.mem_append_right _ ho
    cases which
    · exact ⟨ih.sound.sweep rfl hroots, ih.unshared.sweep ih.sound rfl hroots⟩
    · exact ⟨ih.sound.sweep rfl hroots, ih.unshared.sweep ih.sound rfl hroots⟩
  | pause _ which ih | resume _ which ih =>
    cases which
    · exact ⟨⟨ih.sound.held, ih.sound.memo, ih.sound.exact⟩,
        ⟨ih.unshared.single, ih.unshared.memo, ih.unshared.plain⟩⟩
    · exact ih.congr rfl
  | setInterrupt _ b ih => exact ih.steps (U := []) (.single .note)

/-- What is so of the stacks and the builtins at the start, and after a request if it was before, is
always so. Nothing else that a host does here comes near them. -/
theorem Evaluates.kept {c : EvalContext} {h : Host} {P : Environment → Builtins → Prop}
    (hh : Evaluates c h) (hstart : P (Moment.start c .standard).host.env .standard)
    (heval : ∀ (h : Host) (n : Node), Evaluates c h → P h.env h.state.builtins →
      P ((Host.eval n).run h).2.env ((Host.eval n).run h).2.state.builtins)
    (hrun : ∀ (h : Host) (n : Node), Evaluates c h → P h.env h.state.builtins →
      P ((Host.run n).run h).2.env ((Host.run n).run h).2.state.builtins) :
    P h.env h.state.builtins := by
  induction hh with
  | start => exact hstart
  | eval hh n ih => exact heval _ n hh ih
  | run hh n ih => exact hrun _ n hh ih
  | keep _ label o ih =>
    rw [env, state_keep]
    exact ih
  | sweep _ which ih | pause _ which ih | resume _ which ih => cases which <;> exact ih
  | drop _ name ih | setInterrupt _ b ih => exact ih

end Host

/-- A variable, and a way from there through tuples and vectors. -/
structure Path where
  slot : Slot
  indices : List Nat

/-- The object that a path leads to. -/
def State.at? (s : State) (p : Path) : Option ObjectId :=
  ((s.env.variableAt? p.slot).bind (·.value)).bind (s.heap.store.follow · p.indices)

namespace Host

variable {h k : Host} {o q : ObjectId} {p r : Path}

theorem Clean.path_unique (hh : h.Clean) (hpr : p ≠ r) (hp : h.state.at? p = some o)
    (hr : h.state.at? r = some o) : h.store.IsFunction o := by
  by_contra ho
  obtain ⟨hslot, hindices⟩ :=
    hh.unshared.path_unique (r := .slot p.slot) (t := .slot r.slot) hp hr ho
  cases p
  cases r
  simp_all

theorem Clean.acyclic {is : List Nat} (hh : h.Clean) (hp : h.state.at? p = some o) (his : is ≠ []) :
    h.store.follow o is ≠ some o := by
  intro hcycle
  -- the way round gives a second path to the object
  have hround : h.state.at? ⟨p.slot, p.indices ++ is⟩ = some o := by
    obtain ⟨b, hb, ho⟩ := Option.bind_eq_some_iff.mp hp
    refine Option.bind_eq_some_iff.mpr ⟨b, hb, ?_⟩
    rw [Store.follow_append, ho]
    exact hcycle
  have hne : p ≠ ⟨p.slot, p.indices ++ is⟩ := fun heq =>
    his (List.self_eq_append_right.mp (congrArg Path.indices heq))
  obtain ⟨d, hd⟩ := hh.path_unique hne hp hround
  obtain ⟨i, is, rfl⟩ := List.exists_cons_of_ne_nil his
  simp [Store.follow, show h.store.value o = _ from hd, Value.elements] at hcycle

/-- What an evaluation gives has no part in common with any variable. -/
theorem Clean.disjoint {is : List Nat} (hh : h.Clean) (hs : Steps ⟨h.state, []⟩ ⟨k.state, [o]⟩)
    (hp : k.state.at? p = some q) (hq : k.store.follow o is = some q) : k.store.IsFunction q := by
  by_contra hfun
  have hunshared := hh.unshared.steps hh.sound hs
  obtain ⟨hroot, -⟩ := hunshared.path_unique (r := .slot p.slot) (t := .given 0) hp hq hfun
  cases hroot

/-- Values do not share parts. After any evaluations, two different paths lead to different objects
unless they lead to a function; no object below a variable is inside itself; and what the next
evaluation gives has no part in common with a variable, functions apart. -/
theorem value_semantics {c : EvalContext} (hh : h.Evaluates c) :
    (∀ p r o, p ≠ r → h.state.at? p = some o → h.state.at? r = some o → h.store.IsFunction o) ∧
    (∀ p o is, h.state.at? p = some o → is ≠ [] → h.store.follow o is ≠ some o) ∧
    (∀ n o k, (Host.eval n).run h = (.ok o, k) ∨ (Host.run n).run h = (.ok o, k) →
      ∀ p is q, k.state.at? p = some q → k.store.follow o is = some q → k.store.IsFunction q) := by
  have hclean := hh.clean
  refine ⟨fun p r o => hclean.path_unique, fun p o is => hclean.acyclic,
    fun n o k hk p is q => hclean.disjoint ?_⟩
  obtain hk | hk := hk
  · have := steps_eval (n := n) hclean.sound
    rwa [hk] at this
  · have := steps_run (n := n) hclean.sound
    rwa [hk] at this

/-- A host that had one variable set to a list, and another one to the first. -/
def twoVariables : Host :=
  let list := Node.letVar none { name := "a" } none (some (.list none [.bool none true]))
  let same := Node.letVar none { name := "b" } none (some (.var none { name := "a" }))
  ((Host.eval same).run ((Host.eval list).run (Moment.start {} .standard).host).2).2

theorem value_semantics_twoVariables :
    twoVariables.state.at? ⟨⟨0, 0⟩, [0]⟩ = some 0 ∧
      twoVariables.state.at? ⟨⟨0, 1⟩, [0]⟩ ≠ some 0 := by
  have hfirst : twoVariables.state.at? ⟨⟨0, 0⟩, [0]⟩ = some 0 := by decide +kernel
  have hkind : (twoVariables.store.value 0).kind = .bool := by decide +kernel
  refine ⟨hfirst, fun hsecond => ?_⟩
  have hh : twoVariables.Evaluates {} := .eval (.eval .start _) _
  obtain ⟨d, hd⟩ := (value_semantics hh).1 _ _ 0 (by simp) hfirst hsecond
  rw [hd] at hkind
  cases hkind

end Host
end Scripting
