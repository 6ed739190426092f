import Mathlib.Tactic.Common
import Scripting.Eval.Node
import Scripting.Proofs.Renaming.Parallel

/-! What evaluations do between operands. All of it is made of a few elementary actions, so a
property that the actions have, and that one action after the other has if both do, is one of every
routine. -/
namespace Scripting

/-- The same number of open calls, and the same limit to it. -/
def Environment.SameDepth (e f : Environment) : Prop :=
  f.frames.size = e.frames.size ∧ f.maxCallDepth = e.maxCallDepth

namespace Environment

variable {e f g : Environment} {s : Store} {o : ObjectId}

theorem SameDepth.trans (h : e.SameDepth f) (h' : f.SameDepth g) : e.SameDepth g :=
  ⟨h'.1.trans h.1, h'.2.trans h.2⟩

theorem sameDepth_leave : e.SameDepth (e.leave s).1 := by
  unfold leave
  split
  · split <;> exact ⟨rfl, rfl⟩
  · exact ⟨rfl, rfl⟩

theorem sameDepth_declare {name : String} : e.SameDepth (e.declare name).2 := by
  simp only [declare]
  split <;> exact ⟨rfl, rfl⟩

theorem sameDepth_assign {slot : Slot} : e.SameDepth (e.assign s slot o).1 := by
  unfold assign
  split <;> exact ⟨rfl, rfl⟩

theorem sameDepth_define {name : String} : e.SameDepth (e.define s name o).1 :=
  sameDepth_declare.trans sameDepth_assign

theorem sameDepth_leaveFunction : e.SameDepth (Eval.leaveFunction e o) := by
  unfold Eval.leaveFunction
  split
  · exact ⟨rfl, rfl⟩
  · exact ⟨by simp [modifyFrame, skipFrom, breakLoopsFrom], rfl⟩

theorem sameDepth_leaveLoop {result : Option ObjectId} : e.SameDepth (Eval.leaveLoop e result) := by
  unfold Eval.leaveLoop
  split
  · exact ⟨rfl, rfl⟩
  · unfold modifyLoop
    split <;> exact ⟨rfl, rfl⟩

end Environment

/-- Whether a builtin looks at most at what its arguments hold, and not through them. -/
def Primitive.isShallow : Primitive → Bool
  | .print | .println | .printf | .format | .append => false
  | _ => true

namespace Eval

/-! ### Elementary actions -/

/-- How much a routine may do. -/
inductive Manner where
  /-- It leaves the stacks alone. -/
  | still
  /-- It takes no steps to speak of, and opens and closes no call. -/
  | smooth
  | free

/-- The routine may look through objects, which takes as many steps as they are deep. -/
class Manner.Walks (m : Manner) : Prop where
  ne_smooth : m ≠ .smooth

/-- The routine may change the stacks. -/
class Manner.Binds (m : Manner) : Prop where
  ne_still : m ≠ .still

instance : Manner.Walks .still := ⟨nofun⟩

instance : Manner.Walks .free := ⟨nofun⟩

instance : Manner.Binds .smooth := ⟨nofun⟩

instance : Manner.Binds .free := ⟨nofun⟩

/-- Gives a vector other elements, which depend on what it holds. -/
def refill (o : ObjectId) (f : Value → Except Error (Array ObjectId)) : Eval Unit := do
  let v ← valueOf o
  let es ← ofExcept (f v)
  setValue o (.vector es)

/-- The elements of a vector with one of them replaced. -/
def replacing (index : Nat) (o : ObjectId) (span : Option Span) :
    Value → Except Error (Array ObjectId)
  | .vector es =>
    if index < es.size then .ok (es.setIfInBounds index o)
    else .error { kind := .subscriptOutOfRange, span }
  | _ => .error { kind := .typeMismatch, span }

/-- The elements of a vector with others after them. -/
def extending (others : Array ObjectId) (span : Option Span) : Value → Except Error (Array ObjectId)
  | .vector es => .ok (es ++ others)
  | _ => .error { kind := .illegalCall, span }

section

variable {o vector : ObjectId} {index : Nat} {span : Option Span}
  {others fs : Array ObjectId} {v : Value}

theorem store_eq_refill :
    store (.element vector index) o span = refill vector (replacing index o span) := by
  funext s
  simp only [store, refill, valueOf, Bind.bind, EStateM.bind, read]
  cases s.heap.store.value vector with
  | vector es =>
    by_cases hlt : index < es.size <;> simp only [replacing, hlt, if_true, if_false] <;> rfl
  | atom | tuple => rfl

theorem size_le_of_replacing (h : replacing index o span v = .ok fs) :
    ∃ es, v = .vector es ∧ es.size ≤ fs.size := by
  cases v with
  | vector es =>
    simp only [replacing] at h
    split at h <;> cases h
    exact ⟨es, rfl, by simp⟩
  | atom | tuple => cases h

theorem append_eq_refill {item : ObjectId} {items : List ObjectId} :
    append (vector :: item :: items) span = (do
      let copies ← copyAll (item :: items)
      refill vector (extending copies span)
      copy vector) := by
  refine bind_congr fun copies => funext fun s => ?_
  simp only [refill, valueOf, Bind.bind, EStateM.bind, read]
  cases s.heap.store.value vector <;> rfl

theorem size_le_of_extending (h : extending others span v = .ok fs) :
    ∃ es, v = .vector es ∧ es.size ≤ fs.size := by
  cases v with
  | vector es =>
    cases h
    exact ⟨es, rfl, by simp⟩
  | atom | tuple => cases h

end

/-- An evaluation that is made of elementary actions. -/
inductive Routine (m : Manner) : {α : Type} → Eval α → Prop
  | pure {α : Type} {a : α} : Routine m (Pure.pure a)
  | raise {α : Type} {e : Error} : Routine m (Eval.raise e : Eval α)
  | bind {α β : Type} {x : Eval α} {f : α → Eval β} (hx : Routine m x) (hf : ∀ a, Routine m (f a)) :
      Routine m (x >>= f)
  /-- Nothing looks at the log. -/
  | read {α : Type} {r : State → α} (h : ∀ s log, r { s with log } = r s) : Routine m (Eval.read r)
  | alloc {v : Value} : Routine m (Eval.alloc v)
  | build {t : Tree} : Routine m (Eval.build t)
  | buildAll {ts : List Tree} : Routine m (modifyGet fun s =>
      ((s.heap.buildAll #[] ts).1, { s with heap := (s.heap.buildAll #[] ts).2 }) :
          Eval (Array ObjectId))
  | functionObject {d : Decl} : Routine m (Eval.functionObject d)
  /-- Vectors get no shorter, and nothing else gets elements. -/
  | refill {o : ObjectId} {f : Value → Except Error (Array ObjectId)}
      (h : ∀ v fs, f v = .ok fs → ∃ es, v = .vector es ∧ es.size ≤ fs.size) :
          Routine m (Eval.refill o f)
  | record {event : LogEvent} : Routine m (Eval.record event)
  | output {text : String} : Routine m (modify fun s =>
      { s with sink := { s.sink with text := s.sink.text ++ text } } : Eval Unit)
  | interrupt : Routine m (modify fun s => { s with isInterrupted := true } : Eval Unit)
  | walk {o : ObjectId} (h : m ≠ .smooth) : Routine m (Eval.treeOf o)
  | exhausted {α : Type} (h : m ≠ .smooth) : Routine m (throw .exhausted : Eval α)
  | restack {α : Type} {f : Environment → Store → α × Environment × Store} (h : m ≠ .still)
      (hdepth : ∀ (e : Environment) s, e.SameDepth (f e s).2.1)
      (hstore : ∀ e (s : Store), s.Recounts (f e s).2.2) :
      Routine m (modifyGet fun s => ((f s.env s.heap.store).1, { s with
        env := (f s.env s.heap.store).2.1
        heap := { s.heap with store := (f s.env s.heap.store).2.2 } }) : Eval α)
  /-- Calls are opened and closed within the limit that is set. -/
  | reframe {f : Environment → Environment} (h : m = .free)
      (hdepth : ∀ e, (f e).maxCallDepth = e.maxCallDepth) :
      Routine m (Eval.modifyEnv f)

namespace Routine

variable {α β : Type} {m : Manner} {f : α → Eval β} {o : ObjectId} {os : List ObjectId}
  {span : Option Span}

/-! ### Routines in any manner -/

theorem ofExcept {r : Except Error α} : Routine m (Eval.ofExcept r) := by
  cases r with
  | ok a => exact pure
  | error e => exact raise

/-- A look at the state, but not at the log. -/
theorem look {r : State → α} (h : ∀ s log, r { s with log } = r s) (hf : ∀ a, Routine m (f a)) :
    Routine m (Eval.read r >>= f) := (read h).bind hf

theorem valueOf : Routine m (Eval.valueOf o) := read fun _ _ => rfl

theorem mapM {l : List α} (hf : ∀ a, Routine m (f a)) : Routine m (l.mapM f) := by
  induction l with
  | nil => exact pure
  | cons a l ih =>
    rw [List.mapM_cons]
    exact (hf a).bind fun _ => ih.bind fun _ => pure

theorem allocAtom {a : Atom} : Routine m (Eval.allocAtom a) := alloc

theorem allocNone : Routine m Eval.allocNone := alloc

theorem orNone {r : Option ObjectId} :
    Routine m (match r with | some o => Pure.pure o | none => Eval.allocNone : Eval ObjectId) := by
  cases r with
  | none => exact allocNone
  | some o => exact pure

theorem write {text : String} : Routine m (Eval.write text) := by
  unfold Eval.write
  split
  · exact pure
  · refine look (fun _ _ => rfl) fun isClosed => ?_
    cases isClosed
    · exact output
    · exact record

theorem checkInterrupt : Routine m (Eval.checkInterrupt span) := by
  refine look (fun _ _ => rfl) fun isInterrupted => ?_
  cases isInterrupted
  · exact pure
  · exact raise

theorem trace {n : Node} : Routine m (Eval.trace n) := by
  refine look (fun _ _ => rfl) fun isTraced => ?_
  cases isTraced
  · exact pure
  · exact record

theorem load {p : Place} : Routine m (Eval.load p span) := by
  rcases p with slot | ⟨vector, index⟩
  · refine look (fun _ _ => rfl) fun found => ?_
    cases found
    · exact raise
    · exact pure
  · refine valueOf.bind fun v => ?_
    split
    · split
      · exact pure
      · exact raise
    · exact raise

theorem storeElement {vector : ObjectId} {index : Nat} :
    Routine m (Eval.store (.element vector index) o span) := by
  rw [store_eq_refill]
  exact refill fun _ _ => size_le_of_replacing

theorem variablePlace {ident : Ident} : Routine m (Eval.variablePlace span ident) := by
  refine look (fun _ _ => rfl) fun found => ?_
  cases found
  · exact raise
  · exact pure

theorem subscriptIndex {vector index : ObjectId} {target : Option Span} :
    Routine m (Eval.subscriptIndex vector index target span) := by
  refine valueOf.bind fun v => ?_
  split
  · refine valueOf.bind fun w => ?_
    split
    · split
      · exact pure
      · exact raise
    · exact raise
  · exact raise

theorem compareObjects {op : CompareOp} {l r : ObjectId} :
    Routine m (Eval.compareObjects op l r span) :=
  look (fun _ _ => rfl) fun _ => ofExcept

theorem expectInt : Routine m (Eval.expectInt o span) := by
  refine valueOf.bind fun v => ?_
  split
  · exact pure
  · exact raise

theorem itemsOf : Routine m (Eval.itemsOf o span) := by
  refine valueOf.bind fun v => ?_
  split
  · exact pure
  · exact pure
  · exact raise

theorem isBroken : Routine m Eval.isBroken := read fun _ _ => rfl

theorem selfFunction : Routine m (Eval.selfFunction span) := by
  refine look (fun _ _ => rfl) fun frame => ?_
  split
  · exact functionObject
  · exact raise

/-- What a call gives when it is over. -/
theorem callResult {frame : Option Frame} : Routine m (match frame with
    | some f =>
      if f.isReturned then
        match f.result with
        | some o => Pure.pure o
        | none => Eval.allocNone
      else Pure.pure o
    | none => Pure.pure o : Eval ObjectId) := by
  cases frame with
  | none => exact pure
  | some f =>
    dsimp only
    split
    · exact orNone
    · exact pure

theorem rangeVector : Routine m (Eval.rangeVector o span) := by
  refine valueOf.bind fun v => ?_
  split
  · split
    · exact build
    · exact raise
  · exact raise

theorem applyShallow {p : Primitive} (hp : p.isShallow = true) :
    Routine m (Eval.applyPrimitive p os span) := by
  cases p with
  | abs | double =>
    cases os with
    | nil => exact raise
    | cons o os =>
      refine valueOf.bind fun v => ?_
      split
      · exact ofExcept.bind fun _ => allocAtom
      · exact raise
  | vector =>
    cases os with
    | nil => exact raise
    | cons o os => exact rangeVector
  | identity =>
    cases os with
    | nil => exact allocNone
    | cons o os => exact pure
  | count => exact allocAtom
  | kinds => exact (mapM fun _ => valueOf.bind fun _ => pure).bind fun _ => allocAtom
  | bindings => exact (mapM fun _ => read fun _ _ => rfl).bind fun _ => build
  | length =>
    cases os with
    | nil => exact allocNone
    | cons o os =>
      refine valueOf.bind fun v => ?_
      split
      · exact allocAtom
      · exact allocNone
  | interrupt => exact interrupt.bind fun _ => allocNone
  | fail kind hint => exact raise
  | print | println | printf | format | append => cases hp

/-! ### Routines that look through objects -/

section

variable [m.Walks]

theorem treeOf : Routine m (Eval.treeOf o) := walk Manner.Walks.ne_smooth

theorem throw_exhausted : Routine m (throw .exhausted : Eval α) := exhausted Manner.Walks.ne_smooth

theorem copy : Routine m (Eval.copy o) := treeOf.bind fun _ => build

theorem treesOf : Routine m (Eval.treesOf os) := by
  induction os with
  | nil => exact pure
  | cons o os ih => exact treeOf.bind fun _ => ih.bind fun _ => pure

theorem copyAll : Routine m (Eval.copyAll os) := treesOf.bind fun _ => buildAll

theorem textOf : Routine m (Eval.textOf o) := treeOf.bind fun _ => pure

theorem name {ident : Ident} : Routine m (Eval.name span ident) := by
  refine look (fun _ _ => rfl) fun found => ?_
  split
  · exact allocAtom
  · refine look (fun _ _ => rfl) fun isVariable => ?_
    split
    · exact look (fun _ _ => rfl) fun _ => ofExcept.bind fun _ => copy
    · refine look (fun _ _ => rfl) fun decl => ?_
      split
      · exact functionObject
      · exact raise

theorem compute {op : BinaryOp} {l r : Value} : Routine m (Eval.compute op l r span) := by
  unfold Eval.compute
  split
  · exact ofExcept.bind fun _ => pure
  · split
    · exact copyAll.bind fun _ => pure
    · exact raise
  · split <;> exact raise

theorem writeAll {n : Nat} : Routine m (Eval.writeAll os n) := by
  induction os generalizing n with
  | nil => exact pure
  | cons o os ih => exact textOf.bind fun _ => write.bind fun _ => ih

theorem textsOf : Routine m (Eval.textsOf os) := by
  induction os with
  | nil => exact pure
  | cons o os ih => exact textOf.bind fun _ => ih.bind fun _ => pure

theorem render : Routine m (Eval.render os span) := by
  unfold Eval.render
  split
  · exact raise
  · refine valueOf.bind fun v => ?_
    split
    · refine textsOf.bind fun texts => ?_
      split
      · exact pure
      · exact raise
    · exact raise

theorem append : Routine m (Eval.append os span) := by
  rcases os with _ | ⟨target, _ | ⟨item, items⟩⟩
  · exact raise
  · exact raise
  · rw [append_eq_refill]
    exact copyAll.bind fun _ => (refill fun _ _ => size_le_of_extending).bind fun _ => copy

theorem applyPrimitive {p : Primitive} : Routine m (Eval.applyPrimitive p os span) := by
  cases p with
  | print => exact writeAll.bind fun _ => allocAtom
  | println => exact writeAll.bind fun _ => write.bind fun _ => allocAtom
  | printf => exact render.bind fun _ => write.bind fun _ => allocAtom
  | format => exact render.bind fun _ => allocAtom
  | append => exact append
  | _ => exact applyShallow rfl

theorem callBuiltin {b : Builtin} : Routine m (Eval.callBuiltin b os span) :=
  look (fun _ _ => rfl) fun _ => ofExcept.bind fun _ => applyPrimitive

end

/-! ### Routines that change the stacks -/

section

variable [m.Binds]

theorem modifyEnv {f : Environment → Environment} (h : ∀ e : Environment, e.SameDepth (f e)) :
    Routine m (Eval.modifyEnv f) :=
  restack (f := fun e s => ((), f e, s)) Manner.Binds.ne_still (fun e _ => h e) fun _ _ => .refl

theorem modifyBindings {f : Environment → Store → Environment × Store}
    (hdepth : ∀ (e : Environment) s, e.SameDepth (f e s).1)
    (hstore : ∀ e (s : Store), s.Recounts (f e s).2) :
    Routine m (Eval.modifyBindings f) :=
  restack (f := fun e s => ((), f e s)) Manner.Binds.ne_still hdepth hstore

theorem leaveScope : Routine m Eval.leaveScope :=
  modifyBindings (fun _ _ => Environment.sameDepth_leave) fun _ _ => Environment.recounts_leave

theorem declare {name : String} : Routine m (Eval.declare name) :=
  restack (f := fun e s => ((e.declare name).1, (e.declare name).2, s)) Manner.Binds.ne_still
    (fun _ _ => Environment.sameDepth_declare) fun _ _ => .refl

theorem define {name : String} : Routine m (Eval.define name o) :=
  modifyBindings (fun _ _ => Environment.sameDepth_define) fun _ _ => Environment.recounts_assign

theorem enter {kind : ScopeKind} {functions : List Decl} :
    Routine m (Eval.modifyEnv (·.enter kind functions)) := modifyEnv fun _ => ⟨rfl, rfl⟩

theorem modifyScope {i : Nat} {g : Scope → Scope} :
    Routine m (Eval.modifyEnv (·.modifyScope i g)) :=
  modifyEnv fun _ => ⟨rfl, rfl⟩

theorem store {p : Place} : Routine m (Eval.store p o span) := by
  rcases p with slot | ⟨vector, index⟩
  · refine look (fun _ _ => rfl) fun isThere => ?_
    split
    · exact modifyBindings (fun _ _ => Environment.sameDepth_assign) fun _ _ =>
        Environment.recounts_assign
    · exact raise
  · exact storeElement

theorem continueFrom : Routine m (Eval.continueFrom span) := by
  refine look (fun _ _ => rfl) fun l => ?_
  split
  · exact bind (modifyEnv fun _ => ⟨rfl, rfl⟩) fun _ => allocNone
  · exact raise

theorem endCall {result : ObjectId} : Routine m (do
    if ← Eval.read (·.env.currentFrame?.isNone) then Eval.raise { kind := .notInsideFunction, span }
    else
      Eval.modifyEnv (leaveFunction · result)
      Eval.allocNone) := by
  refine look (fun _ _ => rfl) fun isNone => ?_
  cases isNone
  · exact (modifyEnv fun _ => Environment.sameDepth_leaveFunction).bind fun _ => allocNone
  · exact raise

theorem endLoop {result : Option ObjectId} : Routine m (do
    if ← Eval.read (·.env.currentLoop?.isNone) then notInsideLoop "break" span
    else
      Eval.modifyEnv (leaveLoop · result)
      Eval.allocNone) := by
  refine look (fun _ _ => rfl) fun isNone => ?_
  cases isNone
  · exact (modifyEnv fun _ => Environment.sameDepth_leaveLoop).bind fun _ => allocNone
  · exact raise

theorem openLoop {nodes : List Node} : Routine m (Eval.openLoop nodes) :=
  modifyEnv fun _ => ⟨rfl, rfl⟩

theorem closeLoop : Routine m Eval.closeLoop := by
  refine look (fun _ _ => rfl) fun _ => bind (modifyEnv fun _ => ⟨rfl, rfl⟩) fun _ => ?_
  exact leaveScope.bind fun _ => orNone

theorem freshIterator {iterator : Node} : Routine m (Eval.freshIterator iterator) := by
  unfold Eval.freshIterator
  split
  · exact declare.bind fun _ => pure
  · exact pure

theorem bindFixed (params : List Param) (os : List ObjectId) :
    Routine m (Eval.bindFixed params os) := by
  induction params generalizing os with
  | nil => exact pure
  | cons p params ih =>
    cases os with
    | nil => exact pure
    | cons o os => exact define.bind fun _ => ih os

theorem bindRest {d : Decl} : Routine m (Eval.bindRest d os) := by
  unfold Eval.bindRest
  split
  · exact alloc.bind fun _ => define
  · exact pure

end

/-! ### Routines that open and close calls -/

theorem openCall {d : Decl} : Routine .free (Eval.openCall d span) := by
  refine enter.bind fun _ => look (fun _ _ => rfl) fun tooDeep => ?_
  cases tooDeep with
  | none => exact reframe rfl fun _ => rfl
  | some e => exact leaveScope.bind fun _ => raise

theorem closeCall : Routine .free (Eval.closeCall o) := by
  refine look (fun _ _ => rfl) fun frame => bind (reframe rfl fun _ => rfl) fun _ => ?_
  exact leaveScope.bind fun _ => callResult

end Routine
end Eval
end Scripting
