import Mathlib.Tactic.Common
import Scripting.Proofs.Eval.Decomposition
import Scripting.Proofs.Eval.Recording
import Scripting.Proofs.Renaming.Environments

/-! What a call of a function of the script does: which calls are refused, what the body finds in
its scope, and where the value of the call comes from. -/
namespace Scripting

namespace Decl

theorem params_eq (d : Decl) : d.params = d.fixed ++ d.variadic?.toList := by
  unfold fixed
  cases hlast : d.variadic? with
  | none => simp
  | some p =>
    obtain ⟨hp, -⟩ := Option.filter_eq_some_iff.mp hlast
    obtain ⟨ps, hps⟩ := List.getLast?_eq_some_iff.mp hp
    simp [hps]

/-- A number of arguments that the declaration has parameters for. -/
def Takes (d : Decl) (n : Nat) : Prop :=
  d.fixed.length ≤ n ∧ (n ≤ d.fixed.length ∨ d.variadic?.isSome)

instance (d : Decl) (n : Nat) : Decidable (d.Takes n) := inferInstanceAs (Decidable (_ ∧ _))

/-- Names for the arguments in order, and for what the variadic parameter gets. -/
def bindings (d : Decl) (args : List ObjectId) (rest : ObjectId) : List (String × ObjectId) :=
  (d.fixed.map (·.ident.name)).zip args ++ d.variadic?.toList.map fun p => (p.ident.name, rest)

theorem names_bindings {d : Decl} {args : List ObjectId} {rest : ObjectId}
    (h : d.Takes args.length) :
    (d.bindings args rest).map (·.1) = d.params.map (·.ident.name) := by
  have hlen : (d.fixed.map (·.ident.name)).length ≤ args.length := by simpa using h.1
  rw [bindings, params_eq, List.map_append, List.map_append, List.map_fst_zip hlen, List.map_map]
  rfl

end Decl

/-! ### Variables of one scope -/

/-- The variables of a scope after a list of definitions: each name once, with what it was defined
as last. -/
structure Scope.Binds (x : Scope) (bs : List (String × ObjectId)) : Prop where
  nodup : x.names.Nodup
  names : ∀ name, name ∈ x.names ↔ name ∈ bs.map (·.1)
  value : ∀ (i : Nat) (v : Variable), x.vars[i]? = some v → v.value = bs.reverse.lookup v.name

namespace Scope

variable {x : Scope} {bs : List (String × ObjectId)} {name : String} {o : ObjectId}

/-- The scope with a name bound, in its place or at the end. -/
def bound (x : Scope) (name : String) (o : ObjectId) : Scope :=
  match x.indexOf? name with
  | some j => { x with vars := x.vars.modify j ({ · with value := some o }) }
  | none => { x with vars := x.vars.push { name, value := some o } }

theorem getElem?_names {i : Nat} : x.names[i]? = x.vars[i]?.map (·.name) := by simp [names]

theorem indexOf?_some {j : Nat} (h : x.indexOf? name = some j) : x.names[j]? = some name := by
  obtain ⟨hj, hname, -⟩ := Array.findIdx?_eq_some_iff_getElem.mp h
  rw [getElem?_names, Array.getElem?_eq_getElem hj, Option.map_some, eq_of_beq hname]

theorem indexOf?_none (h : x.indexOf? name = none) : name ∉ x.names := by
  intro hmem
  obtain ⟨v, hv, hname⟩ := List.mem_map.mp hmem
  have := Array.findIdx?_eq_none_iff.mp h v (Array.mem_toList_iff.mp hv)
  simp [hname] at this

/-- A name that has its variable is bound anew there. -/
theorem Binds.rebind {j : Nat} (h : x.Binds bs) (hj : x.names[j]? = some name) :
    ({ x with vars := x.vars.modify j ({ · with value := some o }) } : Scope).Binds
      (bs ++ [(name, o)]) := by
  have hmem : name ∈ x.names := List.mem_of_getElem? hj
  constructor
  · rw [Environment.Balanced.names_modify]
    exact h.nodup
  · intro other
    rw [Environment.Balanced.names_modify, h.names, List.map_append, List.mem_append]
    refine ⟨.inl, fun hother => hother.elim id fun hlast => ?_⟩
    simp only [List.map_cons, List.map_nil, List.mem_singleton] at hlast
    exact hlast ▸ (h.names name).mp hmem
  · intro i v hv
    rw [Array.getElem?_modify] at hv
    rw [List.reverse_append, List.reverse_singleton, List.singleton_append]
    by_cases hij : j = i
    · subst hij
      rw [if_pos rfl] at hv
      obtain ⟨w, hw, rfl⟩ := Option.map_eq_some_iff.mp hv
      rw [getElem?_names, hw, Option.map_some, Option.some_inj] at hj
      simp [hj]
    · rw [if_neg hij] at hv
      -- No other variable has the name.
      have hne : v.name ≠ name := by
        intro heq
        have hi : x.names[i]? = some name := by rw [getElem?_names, hv, Option.map_some, heq]
        have hlt := (List.getElem?_eq_some_iff.mp hj).1
        exact hij ((List.getElem?_inj hlt h.nodup).mp (hj.trans hi.symm))
      simp [List.lookup_cons, beq_eq_false_iff_ne.mpr hne, h.value i v hv]

theorem Binds.push (h : x.Binds bs) (hnew : name ∉ x.names) :
    ({ x with vars := x.vars.push { name, value := some o } } : Scope).Binds
      (bs ++ [(name, o)]) := by
  have hnames : ({ x with vars := x.vars.push { name, value := some o } } : Scope).names =
      x.names ++ [name] := by simp [Scope.names]
  constructor
  · rw [hnames, List.nodup_append]
    refine ⟨h.nodup, List.nodup_singleton name, fun a ha b hb hab => ?_⟩
    rw [List.mem_singleton] at hb
    exact hnew (hb ▸ hab ▸ ha)
  · intro other
    rw [hnames, List.mem_append, h.names, List.map_append, List.mem_append]
    rfl
  · intro i v hv
    rw [List.reverse_append, List.reverse_singleton, List.singleton_append]
    rcases Environment.getElem?_push_cases hv with ⟨hold, -⟩ | ⟨-, rfl⟩
    · have hne : v.name ≠ name := by
        intro heq
        have hi : x.names[i]? = some name := by rw [getElem?_names, hold, Option.map_some, heq]
        exact hnew (List.mem_of_getElem? hi)
      simp [List.lookup_cons, beq_eq_false_iff_ne.mpr hne, h.value i v hold]
    · simp

theorem Binds.bound (h : x.Binds bs) : (x.bound name o).Binds (bs ++ [(name, o)]) := by
  unfold Scope.bound
  cases hindex : x.indexOf? name with
  | some j => exact h.rebind (indexOf?_some hindex)
  | none => exact h.push (indexOf?_none hindex)

end Scope

namespace Environment

variable {e : Environment} {s : Store} {name : String} {o : ObjectId}

/-- Defining a name changes the innermost scope alone. -/
theorem define_push {ss : Array Scope} {x : Scope} (h : e.scopes = ss.push x)
    (s : Store) (name : String) (o : ObjectId) :
    (e.define s name o).1 = { e with scopes := ss.push (x.bound name o) } := by
  have hcurrent : e.current = x := by simp [current, h]
  have hmodify : ∀ (y : Scope) (f : Scope → Scope),
      (ss.push y).modify ss.size f = ss.push (f y) := by
    intro y f
    simpa using @modify_push_last _ ss y f
  have hindex : e.currentIndex = ss.size := by simp [currentIndex, h]
  simp only [define, declare, hcurrent, hindex]
  unfold Scope.bound
  cases hj : x.indexOf? name with
  | some j =>
    obtain ⟨hlt, -, -⟩ := Array.findIdx?_eq_some_iff_getElem.mp hj
    have hvariable : e.variableAt? ⟨ss.size, j⟩ = some x.vars[j] := by simp [variableAt?, h, hlt]
    simp only [assign, hvariable, modifyScope, h, hmodify]
  | none =>
    have hscopes : (e.modifyScope ss.size fun y => { y with vars := y.vars.push { name } }).scopes =
        ss.push { x with vars := x.vars.push { name } } := by simp only [modifyScope, h, hmodify]
    have hvariable : (e.modifyScope ss.size fun y =>
        { y with vars := y.vars.push { name } }).variableAt?
        ⟨ss.size, x.vars.size⟩ = some { name } := by simp [variableAt?, hscopes]
    have hlast : (x.vars.push { name }).modify x.vars.size ({ · with value := some o }) =
        x.vars.push { name, value := some o } := by
      simpa using @modify_push_last _ x.vars { name } ({ · with value := some o })
    simp only [assign, hvariable]
    simp only [modifyScope, h, hmodify, hlast]

theorem recounts_define : s.Recounts (e.define s name o).2 := recounts_assign

end Environment

/-! ### The state of the body -/

namespace Eval

/-- A call opened over a state: one more scope, which has the definitions made so far, and one more
frame. What there was has the value that it had. -/
structure Opened (decl : Decl) (s : State) (bs : List (String × ObjectId)) (u : State) : Prop where
  state : ∃ vars : Array Variable, Scope.Binds { kind := .function, vars } bs ∧
    u = { s with
      heap := u.heap
      env := { s.env with
        scopes := s.env.scopes.push { kind := .function, vars }
        frames := s.env.frames.push
          { decl, scopeDepth := s.env.scopes.size, loopDepth := s.env.loops.size } } }
  value : ∀ o, s.heap.store.Has o → u.heap.store.Has o ∧ u.heap.store.value o = s.heap.store.value o

namespace Opened

variable {s u : State} {decl : Decl} {bs : List (String × ObjectId)}

theorem start (decl : Decl) (s : State) :
    Opened decl s [] { s with env := s.env.callOpened decl } where
  state := by
    refine ⟨#[], ⟨List.nodup_nil, fun _ => Iff.rfl, nofun⟩, ?_⟩
    simp [Environment.callOpened, Environment.pushFrame, Environment.enter,
      Environment.currentIndex]
  value := fun _ ho => ⟨ho, rfl⟩

theorem define (h : Opened decl s bs u) (name : String) (o : ObjectId) :
    ∃ v, Eval.define name o u = .ok () v ∧
    u.heap.store.Recounts v.heap.store ∧ Opened decl s (bs ++ [(name, o)]) v := by
  obtain ⟨⟨vars, hbinds, hu⟩, hvalue⟩ := h
  have hscopes : u.env.scopes = s.env.scopes.push { kind := .function, vars } := by rw [hu]
  have hrecounts : u.heap.store.Recounts (u.env.define u.heap.store name o).2 :=
    Environment.recounts_define
  refine ⟨_, rfl, hrecounts, ?_, ?_⟩
  · obtain ⟨vars', hvars⟩ : ∃ vars', Scope.bound { kind := .function, vars } name o =
        { kind := .function, vars := vars' } := by
      unfold Scope.bound
      split <;> exact ⟨_, rfl⟩
    refine ⟨vars', hvars ▸ hbinds.bound, ?_⟩
    have henv := Environment.define_push hscopes u.heap.store name o
    rw [hvars] at henv
    dsimp only
    rw [henv]
    rw [hu]
  · intro q hq
    obtain ⟨hhas, hq'⟩ := hvalue q hq
    exact ⟨(hrecounts.has q).mpr hhas, (hrecounts.value q).trans hq'⟩

theorem bindFixed (ps : List Param) (os : List ObjectId) (h : Opened decl s bs u) :
    ∃ v, Eval.bindFixed ps os u = .ok () v ∧ u.heap.store.Recounts v.heap.store ∧
      Opened decl s (bs ++ (ps.map (·.ident.name)).zip os) v := by
  induction ps generalizing os bs u with
  | nil => exact ⟨u, rfl, .refl, by simpa using h⟩
  | cons p ps ih =>
    cases os with
    | nil => exact ⟨u, rfl, .refl, by simpa using h⟩
    | cons o os =>
      obtain ⟨v, hv, hcounts, hopened⟩ := h.define p.ident.name o
      obtain ⟨w, hw, hcounts', hopened'⟩ := ih os hopened
      refine ⟨w, ?_, hcounts.trans hcounts', by simpa using hopened'⟩
      simp only [Eval.bindFixed, Bind.bind, EStateM.bind, hv, hw]

theorem alloc {v : Value} (h : Opened decl s bs u) :
    Opened decl s bs { u with heap := (u.heap.alloc v).2 } where
  state := by
    obtain ⟨vars, hbinds, hu⟩ := h.state
    exact ⟨vars, hbinds, by rw [hu]⟩
  value := by
    intro q hq
    obtain ⟨hhas, hvalue⟩ := h.value q hq
    have hne : q ≠ u.heap.store.next := Nat.ne_of_lt hhas.lt_next
    refine ⟨Store.has_push.mpr (.inr hhas), ?_⟩
    rw [← hvalue]
    exact (Store.value_push).trans (if_neg hne)

/-- The variadic parameter gets a new vector of the arguments that are left. -/
theorem bindRest (h : Opened decl s bs u) (rest : List ObjectId) :
    ∃ v, Eval.bindRest decl rest u = .ok () v ∧
      Opened decl s (bs ++ decl.variadic?.toList.map fun p => (p.ident.name, u.heap.store.next)) v ∧
      (decl.variadic?.isSome → v.heap.store.value u.heap.store.next = .vector rest.toArray) := by
  unfold Eval.bindRest
  cases decl.variadic? with
  | none => exact ⟨u, rfl, by simpa using h, nofun⟩
  | some p =>
    have hnew : (u.heap.alloc (.vector rest.toArray)).2.store.value u.heap.store.next =
        .vector rest.toArray :=
      Store.value_push.trans (if_pos rfl)
    obtain ⟨v, hv, hcounts, hopened⟩ := (h.alloc (v := .vector rest.toArray)).define
      p.ident.name u.heap.store.next
    exact ⟨v, hv, hopened, fun _ => (hcounts.value _).trans hnew⟩

end Opened

theorem closeCall_ok (value : ObjectId) (u : State) : ∃ r v, closeCall value u = .ok r v := by
  simp only [closeCall, Bind.bind, EStateM.bind, Eval.read]
  cases u.env.frames.back? with
  | none => exact ⟨_, _, rfl⟩
  | some f =>
    rcases f with ⟨d, isReturned, result, scopeDepth, loopDepth⟩
    cases isReturned with
    | false => exact ⟨_, _, rfl⟩
    | true => cases result <;> exact ⟨_, _, rfl⟩

/-- The innermost call ends with what it returned last, or else with the value of its body. -/
theorem closeCall_eq {u : State} {f : Frame} {exits : List Exit} (value : ObjectId)
    (hf : u.env.frames.back? = some f) (h : f.Recounts exits) :
    ∃ v, closeCall value u = .ok ((Exit.result? exits).getD value) v := by
  obtain ⟨hreturned, hresult⟩ := h
  rw [← Exit.isSome_result?] at hreturned
  simp only [closeCall, Bind.bind, EStateM.bind, Eval.read, hf]
  cases hlast : Exit.result? exits with
  | none =>
    simp only [hlast, Option.isSome_none] at hreturned
    simp only [hreturned]
    exact ⟨_, rfl⟩
  | some o =>
    simp only [hlast, Option.isSome_some] at hreturned
    simp only [hreturned, hresult, hlast]
    exact ⟨_, rfl⟩

/-! ### Calls -/

variable {s u : State} {decl : Decl} {os : List ObjectId} {span : Option Span}

/-- What a call does before its body. -/
def beginCall (decl : Decl) (args : List ObjectId) (span : Option Span) : Eval Unit := do
  openCall decl span
  bindFixed decl.fixed args
  bindRest decl (args.drop decl.fixed.length)

theorem checkArity_of_takes (h : decl.Takes os.length) :
    checkArity decl os.length span = .ok () := by
  obtain ⟨hfew, hmany⟩ := h
  have hnot : ¬ (decl.fixed.length < os.length ∧ decl.variadic?.isNone) := by
    rintro ⟨hlt, hnone⟩
    rcases hmany with hle | hsome
    · omega
    · simp_all
  rw [checkArity, if_neg (by omega), if_neg hnot]

theorem invoke_of_takes {ev : Node → Eval ObjectId} (h : decl.Takes os.length) :
    invoke ev decl os span = beginCall decl os span >>= fun _ => ev decl.body >>= closeCall := by
  rw [invoke, checkArity_of_takes h]
  simp only [beginCall, bind_assoc]
  rfl

/-- A call at the limit is refused, any other one gets as far as its body. -/
theorem beginCall_cases (hs : s.env.Rooted) (decl : Decl) (os : List ObjectId)
    (span : Option Span) :
    (s.env.maxCallDepth ≤ s.env.callDepth → beginCall decl os span s = .error (.raised
      (.hinted .stackOverflow span s!"call depth limit of {s.env.maxCallDepth} reached")) s) ∧
    (s.env.callDepth < s.env.maxCallDepth → ∃ u, beginCall decl os span s = .ok () u ∧
      Opened decl s (decl.bindings os s.heap.store.next) u ∧
      (decl.variadic?.isSome →
        u.heap.store.value s.heap.store.next = .vector (os.drop decl.fixed.length).toArray)) := by
  have hopen : openCall decl span s = _ := Tracks.openCall_eq hs
  constructor
  · intro hdepth
    have herror : s.env.depthError? span = some _ := if_pos hdepth
    simp only [herror] at hopen
    simp only [beginCall, Bind.bind, EStateM.bind, hopen]
  · intro hdepth
    have herror : s.env.depthError? span = none := if_neg (Nat.not_le.mpr hdepth)
    simp only [herror] at hopen
    obtain ⟨t, ht, hcounts, hopened⟩ := (Opened.start decl s).bindFixed decl.fixed os
    obtain ⟨u, hu, hopened', hrest⟩ := hopened.bindRest (os.drop decl.fixed.length)
    rw [hcounts.next] at hopened' hrest
    exact ⟨u, by simp only [beginCall, Bind.bind, EStateM.bind, hopen, ht, hu], hopened', hrest⟩

/-- The frame of the call is the last one still when the body has given its value, and its marks are
those of the returns that were executed. -/
theorem Opened.returns {bs : List (String × ObjectId)} {fuel : Nat} {t : State} {value : ObjectId}
    (hopened : Opened decl s bs u) (hbody : node fuel decl.body u = .ok value t) :
    ∃ exits v, Recorded.node fuel decl.body [] u = .ok (value, exits) t ∧
      closeCall value t = .ok ((Exit.result? exits).getD value) v := by
  obtain ⟨⟨vars, -, hu⟩, -⟩ := hopened
  have hframes : u.env.frames = s.env.frames.push
      { decl, scopeDepth := s.env.scopes.size, loopDepth := s.env.loops.size } := by rw [hu]
  have hloops : u.env.loops = s.env.loops := by rw [hu]
  have hfloored : u.env.Floored := by
    simp [Environment.Floored, Environment.loopFloor, hframes, hloops]
  obtain ⟨exits, hmarked, hrun⟩ := (Records.node fuel decl.body u hfloored).1 value t hbody
  obtain ⟨f, hmarks, -, hframes', -⟩ :=
    Environment.left_inCall exits hframes hloops rfl ⟨rfl, rfl⟩
  have hf : t.env.frames.back? = some f := by rw [hmarked.same.1, hframes', Array.back?_push]
  obtain ⟨v, hclose⟩ := closeCall_eq value hf hmarks
  exact ⟨exits, v, by simpa using hrun [], hclose⟩

/-- The scope of a call has the parameters and nothing else. -/
theorem Opened.names (hopened : Opened decl s (decl.bindings os s.heap.store.next) u)
    (htakes : decl.Takes os.length) (name : String) :
    name ∈ u.env.current.names ↔ name ∈ decl.params.map (·.ident.name) := by
  obtain ⟨vars, hbinds, hstate⟩ := hopened.state
  have hcurrent : u.env.current = { kind := .function, vars } := by
    rw [hstate]
    simp [Environment.current]
  rw [hcurrent, hbinds.names, Decl.names_bindings htakes]

/-- A call that has been opened fails if its body does, and else has a value and closes what it
opened. -/
theorem invoke_opened (fuel : Nat) (hs : s.env.Rooted) (htakes : decl.Takes os.length)
    (hbegin : beginCall decl os span s = .ok () u) :
    (∀ stop t, node fuel decl.body u = .error stop t →
      invoke (node fuel) decl os span s = .error stop t) ∧
    (∀ value t, node fuel decl.body u = .ok value t →
      ∃ r v, invoke (node fuel) decl os span s = .ok r v ∧
      closeCall value t = .ok r v ∧ s.env.Balanced v.env) := by
  have hinvoke : invoke (node fuel) decl os span s = (node fuel decl.body >>= closeCall) u := by
    rw [invoke_of_takes htakes]
    simp only [Bind.bind, EStateM.bind, hbegin]
  constructor
  · intro stop t hbody
    rw [hinvoke]
    simp only [Bind.bind, EStateM.bind, hbody]
  · intro value t hbody
    obtain ⟨r, v, hclose⟩ := closeCall_ok value t
    have hresult : invoke (node fuel) decl os span s = .ok r v := by
      rw [hinvoke]
      simp only [Bind.bind, EStateM.bind, hbody, hclose]
    exact ⟨r, v, hresult, hclose,
      ((Tracks.invoke (W := .rootedness) (d := 0) (follows_node fuel)).keeps hs hresult).balanced⟩

/-- A call is refused whose arguments are too few or too many. -/
theorem invoke_refused {ev : Node → Eval ObjectId} :
    (os.length < decl.fixed.length → invoke ev decl os span s =
      .error (.raised (arityError .tooFewArguments decl os.length span)) s) ∧
    (decl.fixed.length < os.length → decl.variadic? = none → invoke ev decl os span s =
      .error (.raised (arityError .tooManyArguments decl os.length span)) s) := by
  constructor
  · intro hfew
    have harity : checkArity decl os.length span = .error _ := if_pos hfew
    rw [invoke, harity]
    rfl
  · intro hmany hnone
    have harity : checkArity decl os.length span = .error _ :=
      (if_neg (by omega)).trans (if_pos ⟨hmany, by simp [hnone]⟩)
    rw [invoke, harity]
    rfl

end Eval

open Eval

/-- A call of a function is refused for too few arguments, for too many, or else for its depth, and
then the state is the one in which the arguments were found. Any other call runs its body in a scope
of its own with exactly the parameters, where the last of several equal names wins and the variadic
parameter has a vector of the arguments left over. Its value is that of the `return` of the call
that was executed last while the body ran, and the value of the body if none was. -/
theorem calls_bind_and_return {s s₁ : State} (hs : s.env.Rooted) {fuel : Nat} (decl : Decl)
    {args : List Node} {os : List ObjectId} (span : Option Span)
    (hargs : operands (node fuel) args s = .ok os s₁) :
    (os.length < decl.fixed.length → callFunction (node fuel) decl args span s =
      .error (.raised (arityError .tooFewArguments decl os.length span)) s₁) ∧
    (decl.fixed.length < os.length → decl.variadic? = none →
      callFunction (node fuel) decl args span s =
      .error (.raised (arityError .tooManyArguments decl os.length span)) s₁) ∧
    (decl.Takes os.length → s₁.env.maxCallDepth ≤ s₁.env.callDepth →
      callFunction (node fuel) decl args span s = .error (.raised
        (.hinted .stackOverflow span s!"call depth limit of {s₁.env.maxCallDepth} reached")) s₁) ∧
    (decl.Takes os.length → s₁.env.callDepth < s₁.env.maxCallDepth → ∃ s₂,
      beginCall decl os span s₁ = .ok () s₂ ∧
        Opened decl s₁ (decl.bindings os s₁.heap.store.next) s₂ ∧
      (∀ name, name ∈ s₂.env.current.names ↔ name ∈ decl.params.map (·.ident.name)) ∧
      (decl.variadic?.isSome →
        s₂.heap.store.value s₁.heap.store.next = .vector (os.drop decl.fixed.length).toArray) ∧
      match node fuel decl.body s₂ with
      | .error stop s₃ => callFunction (node fuel) decl args span s = .error stop s₃
      | .ok value s₃ => ∃ exits s₄, Recorded.node fuel decl.body [] s₂ = .ok (value, exits) s₃ ∧
          callFunction (node fuel) decl args span s = .ok ((Exit.result? exits).getD value) s₄ ∧
          s₁.env.Balanced s₄.env) := by
  have hcall : callFunction (node fuel) decl args span s = invoke (node fuel) decl os span s₁ := by
    simp only [callFunction, Bind.bind, EStateM.bind, hargs]
  have hs₁ : s₁.env.Rooted :=
    ((Tracks.operands (W := .rootedness) (d := 0) (follows_node fuel) args).keeps hs
      hargs).balanced.toExtends.rooted hs
  obtain ⟨hdeep, hbegin⟩ := beginCall_cases hs₁ decl os span
  obtain ⟨hfew, hmany⟩ := @invoke_refused s₁ decl os span (node fuel)
  rw [hcall]
  refine ⟨hfew, hmany, fun htakes hdepth => ?_, fun htakes hdepth => ?_⟩
  · rw [invoke_of_takes htakes]
    simp only [Bind.bind, EStateM.bind, hdeep hdepth]
  · obtain ⟨s₂, hs₂, hopened, hrest⟩ := hbegin hdepth
    obtain ⟨hfails, hends⟩ := invoke_opened fuel hs₁ htakes hs₂
    refine ⟨s₂, hs₂, hopened, hopened.names htakes, hrest, ?_⟩
    cases hbody : node fuel decl.body s₂ with
    | error stop s₃ => exact hfails stop s₃ hbody
    | ok value s₃ =>
      obtain ⟨r, s₄, hresult, hclose, hbalanced⟩ := hends value s₃ hbody
      obtain ⟨exits, v, hrecord, hclose'⟩ := hopened.returns hbody
      rw [hclose] at hclose'
      injection hclose' with hr
      exact ⟨exits, s₄, hrecord, hr ▸ hresult, hbalanced⟩

/-- `f(a, a, rest...) { [return rest, return a] }`, in which both returns are executed. -/
def lastWins : Decl where
  id := 0
  ident := ⟨"f", none⟩
  params := [{ ident := ⟨"a", none⟩ }, { ident := ⟨"a", none⟩ },
    { ident := ⟨"rest", none⟩, isVariadic := true }]
  body := .list none [.ret none (some (.var none ⟨"rest", none⟩)),
    .ret none (some (.var none ⟨"a", none⟩))]

def threeNumbers : List Node :=
  [.literal none (.int 5), .literal none (.int 6), .literal none (.int 7)]

theorem calls_bind_and_return_repeatedName :
    ∃ s₁ s₂ s₃ s₄, operands (node 4) threeNumbers {} = .ok [0, 1, 2] s₁ ∧ lastWins.Takes 3 ∧
      Opened lastWins s₁ [("a", 0), ("a", 1), ("rest", 3)] s₂ ∧
      s₂.heap.store.value 3 = .vector #[2] ∧
      Recorded.node 4 lastWins.body [] s₂ = .ok (9, [.returned 7, .returned 5]) s₃ ∧
      callFunction (node 4) lastWins threeNumbers none {} = .ok 7 s₄ ∧
      ((callFunction (node 4) lastWins threeNumbers none >>= valueOf).value? {}).bind Value.int? =
        some 6 := by
  have htakes : lastWins.Takes 3 := by decide
  have hargs := eq_ok_of_value? (x := operands (node 4) threeNumbers) (s := {}) (a := [0, 1, 2])
    (by decide +kernel)
  have hdepth : ((operands (node 4) threeNumbers).after {}).env.callDepth <
      ((operands (node 4) threeNumbers).after {}).env.maxCallDepth := by decide +kernel
  have hrooted : (State.env {}).Rooted := rfl
  obtain ⟨-, -, -, hbody⟩ := calls_bind_and_return hrooted lastWins none hargs
  obtain ⟨s₂, hs₂, hopened, -, hrest, hend⟩ := hbody htakes hdepth
  have hrecord : (beginCall lastWins [0, 1, 2] none >>= fun _ => Recorded.node 4 lastWins.body [])
      ((operands (node 4) threeNumbers).after {}) = .ok (9, [.returned 7, .returned 5]) _ :=
    eq_ok_of_value? (by decide +kernel)
  rw [bind_ok hs₂] at hrecord
  have hcall := eq_ok_of_value? (x := callFunction (node 4) lastWins threeNumbers none) (s := {})
    (a := 7) (by decide +kernel)
  cases hrun : node 4 lastWins.body s₂ with
  | error stop s₃ =>
    rw [hrun] at hend
    cases hcall.symm.trans hend
  | ok value s₃ =>
    rw [hrun] at hend
    obtain ⟨exits, s₄, hexits, hresult, -⟩ := hend
    cases hrecord.symm.trans hexits
    exact ⟨_, s₂, _, s₄, hargs, htakes, hopened, hrest rfl, hexits, hresult, by decide +kernel⟩

end Scripting
