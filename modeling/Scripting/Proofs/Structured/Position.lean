import Scripting.Evaluator

/-! Where `break`, `continue` and `return` may stand, and the declarations that a tree can reach. -/
namespace Scripting

/-- What lies between a node and the body it would leave: nothing to leave at all, only statement
lists, conditions and loops, or something that needs a value. -/
inductive Way where
  | none | clear | blocked
  deriving DecidableEq, Repr, Inhabited

/-- The way out of an operand. -/
def Way.within : Way → Way
  | .none => .none
  | .clear | .blocked => .blocked

/-- The ways out of the innermost loop and of the function. -/
structure Position where
  loop : Way
  function : Way
  deriving DecidableEq, Repr, Inhabited

namespace Position

def top : Position := ⟨.none, .none⟩

/-- The body of a function. -/
def body : Position := ⟨.none, .clear⟩

def operand (p : Position) : Position := ⟨p.loop.within, p.function.within⟩

/-- The body of a loop. -/
def loopBody (p : Position) : Position := ⟨.clear, p.function⟩

/-- The test of a loop, and an iterator that is a place. -/
def loopHead (p : Position) : Position := ⟨.blocked, p.function.within⟩

end Position

namespace Node

mutual

/-- Whether every `break`, `continue` and `return` of a node at a position stands where it may.
One that has nothing to leave may stand anywhere, since it is an error. -/
def fits (p : Position) : Node → Bool
  | .none _ | .self _ | .bool _ _ | .literal _ _ | .emptyList _ | .var _ _ | .record _
  | .function _ _ _ _ _ _ => true
  | .list _ items | .tuple _ items => fitsAll p.operand items
  | .call _ f args => fits p.operand f && fitsAll p.operand args
  | .subscript _ a b | .binary _ _ a b | .compare _ _ a b | .range _ a b | .assign _ a b =>
    fits p.operand a && fits p.operand b
  | .cond _ test yes no => fits p.operand test && fits p yes && fitsOption p no
  | .forLoop _ iterator iterable body =>
    fits p.operand iterable && fits p.loopHead iterator && fits p.loopBody body
  | .whileLoop _ test body => fits p.loopHead test && fits p.loopBody body
  | .ret _ value => p.function != .blocked && fitsOption p.operand value
  | .breakLoop _ value => p.loop != .blocked && fitsOption p.operand value
  | .continueLoop _ => p.loop != .blocked
  | .letVar _ _ _ init => fitsOption p.operand init
  | .block _ nodes => fitsAll p nodes

def fitsAll (p : Position) : List Node → Bool
  | [] => true
  | node :: nodes => fits p node && fitsAll p nodes

def fitsOption (p : Position) : Option Node → Bool
  | Option.none => true
  | some node => fits p node

end

mutual

/-- Every function declaration inside a tree, also inside the body of another. -/
def decls : Node → List Decl
  | .none _ | .self _ | .bool _ _ | .literal _ _ | .emptyList _ | .var _ _ | .record _
  | .continueLoop _ => []
  | .list _ nodes | .tuple _ nodes | .block _ nodes => declsAll nodes
  | .call _ f args => decls f ++ declsAll args
  | .subscript _ a b | .binary _ _ a b | .compare _ _ a b | .range _ a b | .assign _ a b
  | .whileLoop _ a b => decls a ++ decls b
  | .cond _ test yes no => decls test ++ decls yes ++ declsOption no
  | .forLoop _ iterator iterable body => decls iterator ++ decls iterable ++ decls body
  | .ret _ node | .breakLoop _ node | .letVar _ _ _ node => declsOption node
  | .function _ id ident params result body => { id, ident, params, result, body } :: decls body

def declsAll : List Node → List Decl
  | [] => []
  | node :: nodes => decls node ++ declsAll nodes

def declsOption : Option Node → List Decl
  | Option.none => []
  | some node => decls node

end

end Node

/-- Whether a function leaves its loops and itself only where it may. -/
def Decl.fits (d : Decl) : Bool := d.body.fits .body

mutual

/-- The objects that the evaluation of a tree can come upon. -/
inductive ReachesObject (s : State) (n : Node) : ObjectId → Prop
  | variable {scope : Scope} {v : Variable} {o : ObjectId} (hs : scope ∈ s.env.scopes)
      (hv : v ∈ scope.vars) (ho : v.value = some o) : ReachesObject s n o
  | element {c o : ObjectId} (hc : ReachesObject s n c)
      (ho : o ∈ (s.heap.store.value c).elements) : ReachesObject s n o
  | memo {d : Decl} {o : ObjectId} (hd : ReachesDecl s n d)
      (ho : s.functions.lookup d.id = some o) : ReachesObject s n o

/-- The declarations that the evaluation of a tree can come upon. -/
inductive ReachesDecl (s : State) (n : Node) : Decl → Prop
  | tree {d : Decl} (hd : d ∈ n.decls) : ReachesDecl s n d
  | scope {scope : Scope} {d : Decl} (hs : scope ∈ s.env.scopes)
      (hd : d ∈ scope.functions) : ReachesDecl s n d
  | payload {o : ObjectId} {d : Decl} (ho : ReachesObject s n o)
      (hd : s.heap.store.value o = .atom (.function d)) : ReachesDecl s n d
  | nested {d e : Decl} (hd : ReachesDecl s n d) (he : e ∈ d.body.decls) : ReachesDecl s n e

end

namespace Node

variable {d e : Decl}

theorem declsAll_eq {nodes : List Node} : declsAll nodes = nodes.flatMap decls := by
  induction nodes with
  | nil => rfl
  | cons node nodes ih => simp [declsAll, ih]

mutual

/-- The functions inside a declaration are functions of every tree that has it. -/
theorem mem_decls_of_nested (n : Node) (hd : d ∈ n.decls) (he : e ∈ d.body.decls) :
    e ∈ n.decls := by
  cases n with
  | none _ | self _ | bool _ _ | literal _ _ | emptyList _ | var _ _ | record _ | continueLoop _ =>
    simp [decls] at hd
  | list _ nodes | tuple _ nodes | block _ nodes => exact mem_declsAll_of_nested nodes hd he
  | call _ f args =>
    simp only [decls, List.mem_append] at hd ⊢
    exact hd.imp (mem_decls_of_nested f · he) (mem_declsAll_of_nested args · he)
  | subscript _ a b | binary _ _ a b | compare _ _ a b | range _ a b | assign _ a b
  | whileLoop _ a b =>
    simp only [decls, List.mem_append] at hd ⊢
    exact hd.imp (mem_decls_of_nested a · he) (mem_decls_of_nested b · he)
  | cond _ test yes no =>
    simp only [decls, List.mem_append] at hd ⊢
    exact hd.imp (·.imp (mem_decls_of_nested test · he) (mem_decls_of_nested yes · he))
      (mem_declsOption_of_nested no · he)
  | forLoop _ iterator iterable body =>
    simp only [decls, List.mem_append] at hd ⊢
    exact hd.imp (·.imp (mem_decls_of_nested iterator · he) (mem_decls_of_nested iterable · he))
      (mem_decls_of_nested body · he)
  | ret _ node | breakLoop _ node | letVar _ _ _ node => exact mem_declsOption_of_nested node hd he
  | function _ id ident params result body =>
    simp only [decls, List.mem_cons] at hd ⊢
    obtain rfl | hd := hd
    · exact .inr he
    · exact .inr (mem_decls_of_nested body hd he)

theorem mem_declsAll_of_nested (nodes : List Node) (hd : d ∈ declsAll nodes)
    (he : e ∈ d.body.decls) : e ∈ declsAll nodes := by
  cases nodes with
  | nil => simp [declsAll] at hd
  | cons node nodes =>
    simp only [declsAll, List.mem_append] at hd ⊢
    exact hd.imp (mem_decls_of_nested node · he) (mem_declsAll_of_nested nodes · he)

theorem mem_declsOption_of_nested (node : Option Node) (hd : d ∈ declsOption node)
    (he : e ∈ d.body.decls) : e ∈ declsOption node := by
  cases node with
  | none => simp [declsOption] at hd
  | some node => exact mem_decls_of_nested node hd he

end

/-! ### Chains of comparisons -/

section

variable {P : Node → Prop} {n a b : Node}

theorem chain_compare (span : Option Span) {op : CompareOp}
    (ha : P a.chain.1 ∧ ∀ link ∈ a.chain.2, P link.2) (hb : P b) :
    P (compare span op a b).chain.1 ∧ ∀ link ∈ (compare span op a b).chain.2, P link.2 := by
  simp only [chain]
  refine ⟨ha.1, fun link hlink => ?_⟩
  rcases List.mem_append.mp hlink with hlink | hlink
  · exact ha.2 link hlink
  · rw [List.mem_singleton.mp hlink]
    exact hb

/-- What the operands of a comparison have from it, the operands of a chain have. -/
theorem chain_parts (hpair : ∀ {span op a b}, P (compare span op a b) → P a ∧ P b) (h : P n) :
    P n.chain.1 ∧ ∀ link ∈ n.chain.2, P link.2 := by
  induction n using chain.induct with
  | case1 span op lhs rhs first links hl ih =>
    obtain ⟨hlhs, hrhs⟩ := hpair h
    exact chain_compare span (ih hlhs) hrhs
  | case2 n hn =>
    simp only [chain]
    exact ⟨h, by simp⟩

end

end Node

mutual

theorem not_reachesObject {s : State} {n : Node} {o : ObjectId}
    (hscopes : ∀ scope ∈ s.env.scopes, scope.vars = #[] ∧ scope.functions = [])
    (hmemo : s.functions = []) : ¬ ReachesObject s n o
  | .variable hs hv _ => by simp [(hscopes _ hs).1] at hv
  | .element hc _ => not_reachesObject hscopes hmemo hc
  | .memo _ ho => by simp [hmemo] at ho

/-- From a state without variables and functions, a tree reaches only its own functions. -/
theorem mem_decls_of_reachesDecl {s : State} {n : Node} {d : Decl}
    (hscopes : ∀ scope ∈ s.env.scopes, scope.vars = #[] ∧ scope.functions = [])
    (hmemo : s.functions = []) : ReachesDecl s n d → d ∈ n.decls
  | .tree hd => hd
  | .scope hs hd => by simp [(hscopes _ hs).2] at hd
  | .payload ho _ => (not_reachesObject hscopes hmemo ho).elim
  | .nested hd he => n.mem_decls_of_nested (mem_decls_of_reachesDecl hscopes hmemo hd) he

end

end Scripting
