import Mathlib.Tactic.Common
import Scripting.Proofs.Host.Completeness

/-! Collection is invisible to scripts: whatever a host frees, holds or lets go of between requests,
it gets the same replies. -/
namespace Scripting

/-- What a host may do between requests. -/
inductive Upkeep where
  | collect (which : HeapName)
  | collectAll (which : HeapName)
  | pause (which : HeapName)
  | resume (which : HeapName)
  | keep (name : String) (o : ObjectId)
  | drop (name : String)

/-- What a host asks of its evaluator. -/
inductive Request where
  | eval (node : Node)
  | run (node : Node)

def Request.node : Request → Node
  | .eval node | .run node => node

/-- A scope with its names and what they are bound to. -/
structure ScopeView where
  kind : ScopeKind
  functions : List Decl
  bindings : List (String × Option Tree)

/-- What a host can see after a request. -/
structure Reply where
  outcome : Except Stop Tree
  output : String
  scopes : List ScopeView

def Variable.view (s : Store) (v : Variable) : Option (String × Option Tree) :=
  match v.value with
  | none => some (v.name, none)
  | some o => (s.tree? o).map fun x => (v.name, some x)

def Scope.view (s : Store) (x : Scope) : Option ScopeView := do
  let bindings ← x.vars.toList.mapM (Variable.view s)
  return { kind := x.kind, functions := x.functions, bindings }

namespace Host

/-- What there is to see, if no object is inside itself. -/
def reply? (h : Host) (result : Except Stop ObjectId) : Option Reply := do
  let outcome ← match result with
    | .ok o => (h.store.tree? o).map .ok
    | .error stop => some (.error stop)
  let scopes ← h.env.scopes.toList.mapM (Scope.view h.store)
  return { outcome, output := h.state.sink.text, scopes }

def perform : Request → HostM (Except Stop ObjectId)
  | .eval n => eval n
  | .run n => run n

/-- Does what is asked for, looks at what there is to see, and takes the output away. -/
def answer (r : Request) : HostM (Option Reply) := do
  let result ← perform r
  let reply := (← get).reply? result
  let _ ← takeOutput
  return reply

def tendOnce : Upkeep → HostM Unit
  | .collect which => do let _ ← collect which
  | .collectAll which => do let _ ← collectAll which
  | .pause which => pause which
  | .resume which => resume which
  | .keep name o => keep (some name) o
  | .drop name => do let _ ← drop name

def tend : List Upkeep → HostM Unit
  | [] => pure ()
  | u :: us => do
    tendOnce u
    tend us

/-- The replies to requests, the first of which has a given number, and each of which comes after
the upkeep for its number. -/
def serve (upkeep : Nat → List Upkeep) : Nat → List Request → HostM (List (Option Reply))
  | _, [] => pure []
  | i, r :: rs => do
    tend (upkeep i)
    let reply ← answer r
    return reply :: (← serve upkeep (i + 1) rs)

variable {D : Decl → Prop} {R : Pairing} {h k : Host} {which : HeapName} {n : Nat} {o p : ObjectId}

/-! ### Upkeep -/

theorem undisturbed_collect : h.state.Undisturbed ((Host.collect which).run h).2.state :=
  undisturbed_sweep.trans (.of_store rfl rfl)

theorem undisturbed_collectUpTo :
    h.state.Undisturbed ((Host.collectUpTo which n).run h).2.state := by
  induction n generalizing h with
  | zero => exact .of_store rfl rfl
  | succ n ih =>
    rw [run_collectUpTo]
    split
    · exact undisturbed_collect
    · exact undisturbed_collect.trans ih

theorem undisturbed_tendOnce (u : Upkeep) : h.state.Undisturbed ((tendOnce u).run h).2.state := by
  cases u with
  | collect which => exact undisturbed_collect
  | collectAll which =>
    have hrun : ((tendOnce (.collectAll which)).run h).2 = ((Host.collectAll which).run h).2 := rfl
    rw [hrun, run_collectAll]
    exact undisturbed_collectUpTo
  | pause which | resume which =>
    cases which
    · exact .of_store rfl rfl
    · exact .of_store rfl rfl
  | keep name o => exact .of_store rfl rfl
  | drop name => exact .of_store rfl rfl

theorem undisturbed_tend (us : List Upkeep) : h.state.Undisturbed ((tend us).run h).2.state := by
  induction us generalizing h with
  | nil => exact .of_store rfl rfl
  | cons u us ih => exact (undisturbed_tendOnce u).trans ih

theorem Twins.tend (hhk : Twins D h k) (us vs : List Upkeep) :
    Twins D ((tend us).run h).2 ((tend vs).run k).2 := by
  obtain ⟨R, hst⟩ := hhk
  exact ⟨_, hst.undisturbed (undisturbed_tend us) (undisturbed_tend vs)⟩

/-! ### Replies -/

theorem mapM_same {α β γ : Type} {r : α → β → Prop} {f : α → Option γ}
    {g : β → Option γ} {xs : List α} {ys : List β} (hxy : List.Forall₂ r xs ys)
    (hfg : ∀ x y, r x y → ∃ z, f x = some z ∧ g y = some z) :
    ∃ zs, xs.mapM f = some zs ∧ ys.mapM g = some zs := by
  induction hxy with
  | nil => exact ⟨[], rfl, rfl⟩
  | cons hxy _ ih =>
    obtain ⟨z, hfx, hgy⟩ := hfg _ _ hxy
    obtain ⟨zs, hfs, hgs⟩ := ih
    exact ⟨z :: zs, by simp [hfx, hfs], by simp [hgy, hgs]⟩

theorem binding_same {v w : Variable} (hst : h.state.Renamed D R k.state) (hvw : v.Renamed R w) :
    ∃ binding, v.view h.store = some binding ∧ w.view k.store = some binding := by
  rw [Variable.view, Variable.view, hvw.name]
  rcases rel_cases hvw.value with ⟨hv, hw⟩ | ⟨o, p, hv, hw, hop⟩
  · rw [hv, hw]
    exact ⟨_, rfl, rfl⟩
  · obtain ⟨tree, ho, hp, -⟩ := hst.store.exists_tree hop
    rw [hv, hw]
    exact ⟨(v.name, some tree), by simp [store, ho], by simp [store, hp]⟩

theorem view_same {x y : Scope} (hst : h.state.Renamed D R k.state) (hxy : x.Renamed D R y) :
    ∃ view, x.view h.store = some view ∧ y.view k.store = some view := by
  obtain ⟨bindings, hx, hy⟩ := mapM_same hxy.vars fun v w hvw => binding_same hst hvw
  refine ⟨⟨x.kind, x.functions, bindings⟩, ?_, ?_⟩
  · simp [Scope.view, hx]
  · simp [Scope.view, hy, hxy.kind, hxy.functions]

theorem reply_same {a b : Except Stop ObjectId} (hst : h.state.Renamed D R k.state)
    (hab : SameEnd R a b) :
    ∃ reply, h.reply? a = some reply ∧ k.reply? b = some reply := by
  obtain ⟨scopes, hs, ht⟩ := mapM_same hst.env.scopes fun x y hxy => view_same hst hxy
  simp only [reply?, env, hs, ht, hst.sink]
  cases hab with
  | ok hop =>
    obtain ⟨tree, ho, hp, -⟩ := hst.store.exists_tree hop
    simp only [store, ho, hp]
    exact ⟨⟨.ok tree, _, scopes⟩, rfl, rfl⟩
  | error stop => exact ⟨⟨.error stop, _, scopes⟩, rfl, rfl⟩

/-! ### Requests -/

theorem run_serve {upkeep : Nat → List Upkeep} {i : Nat} {r : Request} {rs : List Request} :
    (serve upkeep i (r :: rs)).run h =
      (((answer r).run ((tend (upkeep i)).run h).2).1 ::
          ((serve upkeep (i + 1) rs).run ((answer r).run ((tend (upkeep i)).run h).2).2).1,
        ((serve upkeep (i + 1) rs).run ((answer r).run ((tend (upkeep i)).run h).2).2).2) := rfl

section

variable (hD : ∀ d, D d → Eval.Within D d.body) (hids : ∀ d e, D d → D e → e.id = d.id → e = d)

include hD hids

theorem perform_same {r : Request} (hr : Eval.Within D r.node) (hst : h.state.Renamed D R k.state) :
    ∃ R', ((perform r).run h).2.state.Renamed D R' ((perform r).run k).2.state ∧
      SameEnd R' ((perform r).run h).1 ((perform r).run k).1 := by
  obtain ⟨R', hst', hsame⟩ := eval_same hD hids hr hst
  cases r with
  | eval n => exact ⟨R', hst', hsame⟩
  | run n =>
    obtain ⟨h', log, reported, hh, hrun⟩ := run_run_eq (h := h) (n := n)
    obtain ⟨k', log', reported', hk, hrun'⟩ := run_run_eq (h := k) (n := n)
    rw [Request.node, hh, hk] at hst'
    rw [perform, hrun, hrun']
    exact ⟨R', renamed_sink hst' (fun x => { x with flushes := x.flushes + 1 }) log log', hsame⟩

theorem Twins.answer {r : Request} (hr : Eval.Within D r.node) (hhk : Twins D h k) :
    (∃ reply, ((answer r).run h).1 = some reply ∧ ((answer r).run k).1 = some reply) ∧
      Twins D ((answer r).run h).2 ((answer r).run k).2 := by
  obtain ⟨R, hst⟩ := hhk
  obtain ⟨R', hst', hsame⟩ := perform_same hD hids hr hst
  exact ⟨reply_same hst' hsame, R', renamed_sink hst' (fun x => { x with text := "" }) _ _⟩

theorem Twins.serve {upkeep upkeep' : Nat → List Upkeep} {i : Nat} {rs : List Request}
    (hrs : ∀ r ∈ rs, Eval.Within D r.node) (hhk : Twins D h k) :
    ∃ replies : List Reply, replies.length = rs.length ∧
      ((serve upkeep i rs).run h).1 = replies.map some ∧
      ((serve upkeep' i rs).run k).1 = replies.map some := by
  induction rs generalizing h k i with
  | nil => exact ⟨[], rfl, rfl, rfl⟩
  | cons r rs ih =>
    rw [List.forall_mem_cons] at hrs
    obtain ⟨⟨reply, hh, hk⟩, htwins⟩ := (hhk.tend (upkeep i) (upkeep' i)).answer hD hids hrs.1
    obtain ⟨replies, hlength, hh', hk'⟩ := ih (i := i + 1) hrs.2 htwins
    refine ⟨reply :: replies, congrArg (· + 1) hlength, ?_, ?_⟩
    · rw [run_serve, hh, hh', List.map_cons]
    · rw [run_serve, hk, hk', List.map_cons]

end

/-- The declarations in the trees of requests. -/
def declared (rs : List Request) : List Decl := rs.flatMap (·.node.decls)

theorem declared_nested {rs : List Request} {d e : Decl} (hd : d ∈ declared rs)
    (he : e ∈ d.body.decls) :
    e ∈ declared rs := by
  obtain ⟨r, hr, hd⟩ := List.mem_flatMap.mp hd
  exact List.mem_flatMap.mpr ⟨r, hr, Node.mem_decls_of_nested r.node hd he⟩

/-- Collection is invisible. A fresh host gets the same reply to each of its requests, whatever
its collector is set to and whatever upkeep comes before which request: the same value, given as a
tree, or the same error; the same output; and the same scopes, with the same names bound to the same
values. Numbers tell the declarations in the requests apart. -/
theorem collection_invisible (c : EvalContext) (gc gc' : GcConfig)
    (upkeep upkeep' : Nat → List Upkeep) (rs : List Request)
    (hids : ∀ d ∈ declared rs, ∀ e ∈ declared rs, e.id = d.id → e = d) :
    ∃ replies : List Reply, replies.length = rs.length ∧
      ((serve upkeep 0 rs).run (Moment.start { c with gc } .standard).host).1 = replies.map some ∧
      ((serve upkeep' 0 rs).run (Moment.start { c with gc := gc' } .standard).host).1 =
        replies.map some := by
  refine Twins.serve (D := (· ∈ declared rs)) (fun d hd e => declared_nested hd)
    (fun d e hd => hids d hd e)
    (fun r hr d hd => ?_) (twins_start rfl rfl)
  exact List.mem_flatMap.mpr ⟨r, hr, hd⟩

/-- Requests with a function that is bound, used again, called and forgotten. -/
def reuseFunction : List Request :=
  let f := Node.function none 0 ⟨"f", none⟩ [] none (.block none [])
  let x : Ident := ⟨"x", none⟩
  [.run (.letVar none x none (some (.list none [f, .none none]))), .eval (.call none f []),
    .run (.assign none (.var none x) (.emptyList none)), .eval f, .eval (.breakLoop none none)]

theorem collection_invisible_reuseFunction :
    (∀ d ∈ declared reuseFunction, ∀ e ∈ declared reuseFunction, e.id = d.id → e = d) ∧
      ∃ replies : List Reply, replies.length = 5 ∧
        ((serve (fun _ => []) 0 reuseFunction).run (Moment.start {} .standard).host).1 =
          replies.map some ∧
        ((serve (fun i => if i = 2 then [.pause .main] else [.collect .main, .collectAll .spare]) 0
          reuseFunction).run (Moment.start { gc := { sweepLimit := some 1 } } .standard).host).1 =
            replies.map some := by
  have hone : ∀ d ∈ declared reuseFunction,
      d = { id := 0, ident := ⟨"f", none⟩, body := .block none [] } := by
    simp [declared, reuseFunction, Request.node, Node.decls, Node.declsAll, Node.declsOption]
  have hids : ∀ d ∈ declared reuseFunction, ∀ e ∈ declared reuseFunction, e.id = d.id → e = d := by
    intro d hd e he _
    rw [hone d hd, hone e he]
  exact ⟨hids, collection_invisible {} {} { sweepLimit := some 1 } _ _ reuseFunction hids⟩

end Host
end Scripting
