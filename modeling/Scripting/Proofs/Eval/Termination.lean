import Mathlib.Tactic.Common
import Scripting.Proofs.Eval.Settling
import Scripting.Proofs.Renaming.Forms

/-! Evaluation without conditional loops comes to an end by itself: calls are limited in number, and
all else goes down the tree or through the items of a loop, which are fixed when it begins. -/
namespace Scripting

namespace Node

mutual

/-- Whether no loop of a tree depends on a condition, also not inside its functions. -/
def isWhileFree : Node → Bool
  | .none _ | .self _ | .bool _ _ | .literal _ _ | .emptyList _ | .var _ _ | .record _
  | .continueLoop _ => true
  | .list _ nodes | .tuple _ nodes | .block _ nodes => areWhileFree nodes
  | .call _ f args => isWhileFree f && areWhileFree args
  | .subscript _ a b | .binary _ _ a b | .compare _ _ a b | .range _ a b | .assign _ a b =>
    isWhileFree a && isWhileFree b
  | .whileLoop _ _ _ => false
  | .cond _ test yes no => isWhileFree test && isWhileFree yes && isWhileFreeOption no
  | .forLoop _ iterator iterable body =>
    isWhileFree iterator && isWhileFree iterable && isWhileFree body
  | .ret _ node | .breakLoop _ node | .letVar _ _ _ node => isWhileFreeOption node
  | .function _ _ _ _ _ body => isWhileFree body

def areWhileFree : List Node → Bool
  | [] => true
  | node :: nodes => isWhileFree node && areWhileFree nodes

def isWhileFreeOption : Option Node → Bool
  | Option.none => true
  | some node => isWhileFree node

end

mutual

/-- The height of a tree, functions inside it included. -/
def height : Node → Nat
  | .none _ | .self _ | .bool _ _ | .literal _ _ | .emptyList _ | .var _ _ | .record _
  | .continueLoop _ => 1
  | .list _ nodes | .tuple _ nodes | .block _ nodes => heightAll nodes + 1
  | .call _ f args => max (height f) (heightAll args) + 1
  | .subscript _ a b | .binary _ _ a b | .compare _ _ a b | .range _ a b | .assign _ a b
  | .whileLoop _ a b => max (height a) (height b) + 1
  | .cond _ test yes no => max (max (height test) (height yes)) (heightOption no) + 1
  | .forLoop _ iterator iterable body =>
    max (max (height iterator) (height iterable)) (height body) + 1
  | .ret _ node | .breakLoop _ node | .letVar _ _ _ node => heightOption node + 1
  | .function _ _ _ _ _ body => height body + 1

def heightAll : List Node → Nat
  | [] => 0
  | node :: nodes => max (height node) (heightAll nodes)

def heightOption : Option Node → Nat
  | Option.none => 0
  | some node => height node

end

/-- A tree of limited height whose evaluation is limited by it. -/
structure Tame (H : Nat) (n : Node) : Prop where
  free : n.isWhileFree = true
  height : n.height ≤ H

variable {H : Nat} {n a b : Node} {nodes : List Node} {node : Option Node} {d : Decl}

theorem Tame.mono {K : Nat} (h : n.Tame H) (hle : H ≤ K) : n.Tame K :=
  ⟨h.free, Nat.le_trans h.height hle⟩

theorem height_pos (n : Node) : 0 < n.height := by
  cases n <;> simp [Node.height]

theorem Tame.pair (h : n.Tame (H + 1)) (hfree : n.isWhileFree = (a.isWhileFree && b.isWhileFree))
    (hheight : n.height = max a.height b.height + 1) : a.Tame H ∧ b.Tame H := by
  obtain ⟨hn, hH⟩ := h
  rw [hfree, Bool.and_eq_true] at hn
  rw [hheight] at hH
  exact ⟨⟨hn.1, by omega⟩, ⟨hn.2, by omega⟩⟩

theorem tame_of_mem (hfree : areWhileFree nodes = true) (hheight : heightAll nodes ≤ H) :
    ∀ m ∈ nodes, m.Tame H := by
  induction nodes with
  | nil => simp
  | cons m nodes ih =>
    simp only [areWhileFree, Bool.and_eq_true] at hfree
    simp only [heightAll] at hheight
    intro q hq
    rcases List.mem_cons.mp hq with rfl | hq
    · exact ⟨hfree.1, by omega⟩
    · exact ih hfree.2 (by omega) q hq

theorem tame_of_mem_option (hfree : isWhileFreeOption node = true)
    (hheight : heightOption node ≤ H) :
    ∀ m ∈ node, m.Tame H := by
  rintro m rfl
  exact ⟨hfree, hheight⟩

theorem Tame.statements (h : n.Tame H) : ∀ m ∈ n.statements, m.Tame H := by
  unfold Node.statements
  split
  · next span nodes =>
    have hheight := h.height
    simp only [Node.height] at hheight
    exact tame_of_mem h.free (by omega)
  · intro m hm
    rw [List.mem_singleton.mp hm]
    exact h

theorem Tame.chain (h : n.Tame H) : n.chain.1.Tame H ∧ ∀ link ∈ n.chain.2, link.2.Tame H :=
  chain_parts (fun h => (h.mono (Nat.le_succ H)).pair rfl rfl) h

mutual

/-- The functions inside a tame tree are tame. -/
theorem tame_of_mem_decls (n : Node) (h : n.Tame H) (hd : d ∈ n.decls) : d.body.Tame H := by
  obtain ⟨hfree, hheight⟩ := h
  cases n with
  | none _ | self _ | bool _ _ | literal _ _ | emptyList _ | var _ _ | record _ | continueLoop _ =>
    simp [decls] at hd
  | list _ nodes | tuple _ nodes | block _ nodes =>
    simp only [Node.height] at hheight
    exact tame_of_mem_declsAll nodes hfree (by omega) hd
  | call _ f args =>
    simp only [isWhileFree, Bool.and_eq_true] at hfree
    simp only [Node.height] at hheight
    rcases List.mem_append.mp hd with hd | hd
    · exact tame_of_mem_decls f ⟨hfree.1, by omega⟩ hd
    · exact tame_of_mem_declsAll args hfree.2 (by omega) hd
  | subscript _ a b | binary _ _ a b | compare _ _ a b | range _ a b | assign _ a b =>
    simp only [isWhileFree, Bool.and_eq_true] at hfree
    simp only [Node.height] at hheight
    rcases List.mem_append.mp hd with hd | hd
    · exact tame_of_mem_decls a ⟨hfree.1, by omega⟩ hd
    · exact tame_of_mem_decls b ⟨hfree.2, by omega⟩ hd
  | whileLoop _ a b => cases hfree
  | cond _ test yes no =>
    simp only [isWhileFree, Bool.and_eq_true] at hfree
    simp only [Node.height] at hheight
    rcases List.mem_append.mp hd with hd | hd
    · rcases List.mem_append.mp hd with hd | hd
      · exact tame_of_mem_decls test ⟨hfree.1.1, by omega⟩ hd
      · exact tame_of_mem_decls yes ⟨hfree.1.2, by omega⟩ hd
    · exact tame_of_mem_declsOption no hfree.2 (by omega) hd
  | forLoop _ iterator iterable body =>
    simp only [isWhileFree, Bool.and_eq_true] at hfree
    simp only [Node.height] at hheight
    rcases List.mem_append.mp hd with hd | hd
    · rcases List.mem_append.mp hd with hd | hd
      · exact tame_of_mem_decls iterator ⟨hfree.1.1, by omega⟩ hd
      · exact tame_of_mem_decls iterable ⟨hfree.1.2, by omega⟩ hd
    · exact tame_of_mem_decls body ⟨hfree.2, by omega⟩ hd
  | ret _ node | breakLoop _ node | letVar _ _ _ node =>
    simp only [Node.height] at hheight
    exact tame_of_mem_declsOption node hfree (by omega) hd
  | function _ id ident params result body =>
    simp only [Node.height] at hheight
    have hbody : body.Tame H := ⟨hfree, by omega⟩
    rcases List.mem_cons.mp hd with rfl | hd
    · exact hbody
    · exact tame_of_mem_decls body hbody hd

theorem tame_of_mem_declsAll (nodes : List Node) (hfree : areWhileFree nodes = true)
    (hheight : heightAll nodes ≤ H) (hd : d ∈ declsAll nodes) : d.body.Tame H := by
  cases nodes with
  | nil => simp [declsAll] at hd
  | cons node nodes =>
    simp only [areWhileFree, Bool.and_eq_true] at hfree
    simp only [heightAll] at hheight
    rcases List.mem_append.mp hd with hd | hd
    · exact tame_of_mem_decls node ⟨hfree.1, by omega⟩ hd
    · exact tame_of_mem_declsAll nodes hfree.2 (by omega) hd

theorem tame_of_mem_declsOption (node : Option Node) (hfree : isWhileFreeOption node = true)
    (hheight : heightOption node ≤ H) (hd : d ∈ declsOption node) : d.body.Tame H := by
  cases node with
  | none => simp [declsOption] at hd
  | some node => exact tame_of_mem_decls node ⟨hfree, hheight⟩ hd

end

end Node

/-- A function whose body is tame. -/
def Decl.Tame (B : Nat) (d : Decl) : Prop := d.body.Tame B

namespace Eval

variable {α β : Type} {B H k : Nat} {R S : Pairing} {ev ev' : Node → Eval ObjectId} {s : State}
  {n : Node} {nodes : List Node} {d : Decl} {o : ObjectId} {os : List ObjectId} {span : Option Span}

/-- How two evaluators do operands: tame trees settle, and so do the bodies of functions with room
for one call less. -/
structure Settling (B H k : Nat) (ev ev' : Node → Eval ObjectId) : Prop where
  le : H ≤ B
  mirrored : Mirrored (Decl.Tame B) ev
  node : ∀ {R n}, n.Tame H → Ends (Decl.Tame B) k R (ev n) (ev' n)
  body : ∀ {R j} {d : Decl}, k = j + 1 → d.Tame B → Ends (Decl.Tame B) j R (ev d.body) (ev' d.body)

theorem Settling.within (h : Settling B H k ev ev') (hn : n.Tame H) : Within (Decl.Tame B) n :=
  fun _ hd => n.tame_of_mem_decls (hn.mono h.le) hd

theorem Settling.parallel (h : Settling B H k ev ev') (hn : n.Tame H) :
    Parallel (Decl.Tame B) R (ev n) (ev n) Paired := h.mirrored R n (h.within hn)

namespace Ends

/-! ### Operands -/

theorem operands (hev : Mirrored (Decl.Tame B) ev) (hwithin : ∀ m ∈ nodes, Within (Decl.Tame B) m)
    (hnodes : ∀ m ∈ nodes, ∀ {R}, Ends (Decl.Tame B) k R (ev m) (ev' m)) :
    Ends (Decl.Tame B) k R (Eval.operands ev nodes) (Eval.operands ev' nodes) := by
  induction nodes generalizing R with
  | nil => exact smooth .pure
  | cons n nodes ih =>
    refine (hnodes n (by simp)).bind (hev R n (hwithin n (by simp))) fun R₁ o _ _ => ?_
    refine (ih (fun m hm => hwithin m (by simp [hm])) fun m hm => hnodes m (by simp [hm])).finish ?_
    exact fun _ => .pure

section

variable (h : Settling B H k ev ev')

include h

theorem elementPlace {v : ObjectId} {target index : Node} (hindex : index.Tame H) :
    Ends (Decl.Tame B) k R (Eval.elementPlace ev v target index)
      (Eval.elementPlace ev' v target index) :=
  (h.node hindex).finish fun _ => Routine.subscriptIndex.bind fun _ => .pure

theorem reference (hn : n.Tame H) :
    Ends (Decl.Tame B) k R (Eval.reference ev n) (Eval.reference ev' n) := by
  induction n using Eval.reference.induct generalizing R with
  | case1 span ident =>
    refine read (P := fun _ => True) (fun _ _ => trivial) fun isVariable _ => ?_
    split
    · exact smooth (Routine.variablePlace.bind fun _ => .load)
    · exact h.node hn
  | case2 span target index ih =>
    obtain ⟨htarget, hindex⟩ := (hn.mono (Nat.le_succ H)).pair rfl rfl
    refine (ih htarget).bind (.reference h.mirrored (h.within htarget)) fun R₁ v _ _ => ?_
    exact (elementPlace h hindex).finish fun _ => .load
  | case3 n hvar hsub =>
    rw [Eval.reference.eq_3 ev n hvar hsub, Eval.reference.eq_3 ev' n hvar hsub]
    exact h.node hn

theorem place (hn : n.Tame H) : Ends (Decl.Tame B) k R (Eval.place ev n) (Eval.place ev' n) := by
  cases n with
  | var => exact smooth .variablePlace
  | subscript span target index =>
    obtain ⟨htarget, hindex⟩ := (hn.mono (Nat.le_succ H)).pair rfl rfl
    refine (reference h htarget).bind (.reference h.mirrored (h.within htarget)) fun R₁ v _ _ => ?_
    exact elementPlace h hindex
  | _ => exact smooth .raise

theorem subscript {target index : Node} (htarget : target.Tame H) (hindex : index.Tame H) :
    Ends (Decl.Tame B) k R (Eval.subscript ev span target index)
      (Eval.subscript ev' span target index) := by
  refine (reference h htarget).bind (.reference h.mirrored (h.within htarget)) fun R₁ v _ hv => ?_
  refine (elementPlace h hindex).bind (.elementPlace h.mirrored (h.within hindex) hv)
    fun R₂ p _ hp => ?_
  exact (smooth .load).bind (.load hp) fun R₃ o _ ho => copy ho

theorem assign {target value : Node} (htarget : target.Tame H) (hvalue : value.Tame H) :
    Ends (Decl.Tame B) k R (Eval.assign ev span target value)
      (Eval.assign ev' span target value) := by
  refine (place h htarget).bind (.place h.mirrored (h.within htarget)) fun R₁ p _ _ => ?_
  refine (h.node hvalue).bind (h.parallel hvalue) fun R₂ o _ ho => ?_
  exact (copy ho).finish fun _ => Routine.store.bind fun _ => .pure

theorem letVar {ident : Ident} {init : Option Node} (hinit : ∀ m ∈ init, m.Tame H) :
    Ends (Decl.Tame B) k R (Eval.letVar ev ident init) (Eval.letVar ev' ident init) := by
  cases init with
  | some m => exact (h.node (hinit m rfl)).finish fun _ => Routine.define.bind fun _ => .allocNone
  | none => exact smooth (Routine.declare.bind fun _ => .allocNone)

theorem binary {op : BinaryOp} {lhs rhs : Node} (hlhs : lhs.Tame H) (hrhs : rhs.Tame H) :
    Ends (Decl.Tame B) k R (Eval.binary ev span op lhs rhs) (Eval.binary ev' span op lhs rhs) := by
  refine (h.node hlhs).bind (h.parallel hlhs) fun R₁ l _ hl => ?_
  refine (h.node hrhs).bind (h.parallel hrhs) fun R₂ r hle hr => ?_
  refine valueOf (hle _ _ hl) fun v hv => ?_
  refine valueOf hr fun w hw => ?_
  exact (compute hv hw).finish fun _ => .alloc

theorem compareLinks {links : List (CompareOp × Node)} {l : ObjectId}
    (hlinks : ∀ link ∈ links, link.2.Tame H) (hl : R l l) :
    Ends (Decl.Tame B) k R (Eval.compareLinks ev span l links)
      (Eval.compareLinks ev' span l links) := by
  induction links generalizing R l with
  | nil => exact smooth .pure
  | cons link links ih =>
    have hlink : link.2.Tame H := hlinks link (by simp)
    refine (h.node hlink).bind (h.parallel hlink) fun R₁ r hle hr => ?_
    refine (smooth .compareObjects).bind (.compareObjects (hle _ _ hl) hr) fun R₂ holds hle' _ => ?_
    split
    · exact ih (fun m hm => hlinks m (by simp [hm])) (hle' _ _ hr)
    · exact smooth .pure

theorem comparison (hn : n.chain.1.Tame H ∧ ∀ link ∈ n.chain.2, link.2.Tame H) :
    Ends (Decl.Tame B) k R (Eval.comparison ev span n) (Eval.comparison ev' span n) := by
  obtain ⟨hfirst, hlinks⟩ := hn
  refine (h.node hfirst).bind (h.parallel hfirst) fun R₁ l _ hl => ?_
  exact (compareLinks h hlinks hl).finish fun _ => .allocAtom

theorem range {start stop : Node} (hstart : start.Tame H) (hstop : stop.Tame H) :
    Ends (Decl.Tame B) k R (Eval.range ev start stop) (Eval.range ev' start stop) := by
  refine (h.node hstart).bind (h.parallel hstart) fun R₁ a _ _ => ?_
  refine (h.node hstop).finish fun _ => Routine.expectInt.bind fun _ => ?_
  exact Routine.expectInt.bind fun _ => .allocAtom

/-! ### Statements -/

theorem runStatements {index : Nat} (hnodes : ∀ m ∈ nodes, m.Tame H) :
    Ends (Decl.Tame B) k R (Eval.runStatements ev index nodes)
      (Eval.runStatements ev' index nodes) := by
  induction nodes generalizing R with
  | nil => exact smooth .pure
  | cons n nodes ih =>
    have hn : n.Tame H := hnodes n (by simp)
    refine (h.node hn).bind (h.parallel hn) fun R₁ o _ ho => ?_
    refine (smooth .modifyScope).bind (.setScope fun x y hxy => ?_) fun R₂ _ _ _ => ?_
    · exact { hxy with last := .some ho }
    refine read (P := fun _ => True) (fun _ _ => trivial) fun isSkipped _ => ?_
    split
    · exact smooth .pure
    · exact ih fun m hm => hnodes m (by simp [hm])

theorem statements (hnodes : ∀ m ∈ nodes, m.Tame H) :
    Ends (Decl.Tame B) k R (Eval.statements ev nodes) (Eval.statements ev' nodes) := by
  refine read (P := fun _ => True) (fun _ _ => trivial) fun index _ => ?_
  refine (smooth .modifyScope).bind (.setScope fun x y hxy => ?_) fun R₁ _ _ _ => ?_
  · exact { hxy with isSkipped := rfl, last := .none }
  refine (runStatements h hnodes).finish fun _ => Routine.look (fun _ _ => rfl) fun last => ?_
  exact Routine.modifyScope.bind fun _ => .orNone

theorem block (hnodes : ∀ m ∈ nodes, m.Tame H) :
    Ends (Decl.Tame B) k R (Eval.block ev nodes) (Eval.block ev' nodes) := by
  unfold Eval.block
  split
  · exact smooth .allocNone
  · have hdeclared : ∀ d ∈ Node.declared nodes, d.Tame B :=
      Within.declared fun m hm => h.within (hnodes m hm)
    refine (smooth .enter).bind (.enter hdeclared) fun R₁ _ _ _ => ?_
    exact (statements h hnodes).finish fun _ => Routine.leaveScope.bind fun _ => .pure

theorem condition {test : Node} (htest : test.Tame H) :
    Ends (Decl.Tame B) k R (Eval.condition ev test) (Eval.condition ev' test) := by
  refine (h.node htest).finish fun o => Routine.look (fun _ _ => rfl) fun v => ?_
  split
  · exact .pure
  · exact .raise

theorem conditional {test yes : Node} {no : Option Node} (htest : test.Tame H) (hyes : yes.Tame H)
    (hno : ∀ m ∈ no, m.Tame H) :
    Ends (Decl.Tame B) k R (Eval.conditional ev test yes no)
      (Eval.conditional ev' test yes no) := by
  refine (condition h htest).bind (.condition h.mirrored (h.within htest)) fun R₁ holds _ _ => ?_
  split
  · exact h.node hyes
  · cases no with
    | none => exact smooth .allocNone
    | some m => exact h.node (hno m rfl)

theorem returnFrom {value : Option Node} (hvalue : ∀ m ∈ value, m.Tame H) :
    Ends (Decl.Tame B) k R (Eval.returnFrom ev span value) (Eval.returnFrom ev' span value) := by
  refine read (P := fun _ => True) (fun _ _ => trivial) fun isNone _ => ?_
  split
  · exact smooth .raise
  · cases value with
    | none => exact smooth (Routine.allocNone.bind fun _ => .endCall)
    | some m => exact (h.node (hvalue m rfl)).finish fun _ => .endCall

theorem breakFrom {value : Option Node} (hvalue : ∀ m ∈ value, m.Tame H) :
    Ends (Decl.Tame B) k R (Eval.breakFrom ev span value) (Eval.breakFrom ev' span value) := by
  have hoperand : Ends (Decl.Tame B) k R (Eval.operand? ev value) (Eval.operand? ev' value) := by
    cases value with
    | none => exact smooth .pure
    | some m => exact (h.node (hvalue m rfl)).finish fun _ => .pure
  refine read (P := fun _ => True) (fun _ _ => trivial) fun isNone _ => ?_
  split
  · exact smooth .raise
  · exact hoperand.finish fun _ => .endLoop

/-! ### Calls -/

theorem callee (hn : n.Tame H) : Ends (Decl.Tame B) k R (Eval.callee ev n) (Eval.callee ev' n) := by
  unfold Eval.callee
  split
  · refine read (P := fun _ => True) (fun _ _ => trivial) fun isKnown _ => ?_
    split
    · exact h.node hn
    · exact smooth .raise
  · exact h.node hn

omit h

/-- A call is opened only where there is room, and then there is room for one less. -/
theorem settles_openCall (d : Decl) (span : Option Span) (hs : s.Room k) :
    Settles (k - 1) (Eval.openCall d span) (Eval.openCall d span) s ∧
      ∀ u t, Eval.openCall d span s = .ok u t → 0 < k := by
  have henter : Eval.modifyEnv (·.enter .function []) s =
      .ok () { s with env := s.env.enter .function [] } := rfl
  have hread : Eval.read (·.env.depthError? span) { s with env := s.env.enter .function [] } =
      .ok (s.env.depthError? span) { s with env := s.env.enter .function [] } := rfl
  unfold State.Room at hs
  by_cases hfull : s.env.maxCallDepth ≤ s.env.frames.size
  · have hopen : ∃ e t, Eval.openCall d span s = .error (.raised e) t := by
      rw [Environment.depthError?, if_pos hfull] at hread
      simp only [Eval.openCall]
      rw [bind_ok henter, bind_ok hread]
      exact ⟨_, _, rfl⟩
    obtain ⟨e, t, hopen⟩ := hopen
    refine ⟨⟨rfl, ?_⟩, fun u t hr => ?_⟩
    · rw [hopen]
      intro hstop
      cases hstop
    · rw [hopen] at hr
      cases hr
  · have hopen : Eval.openCall d span s = .ok () { s with env := s.env.callOpened d } := by
      rw [Environment.depthError?, if_neg hfull] at hread
      simp only [Eval.openCall]
      rw [bind_ok henter, bind_ok hread]
      rfl
    refine ⟨⟨rfl, ?_⟩, fun _ _ _ => by omega⟩
    rw [hopen]
    simp only [State.Room, Environment.callOpened, Environment.pushFrame, Environment.enter,
      Array.size_push]
    omega

theorem settles_closeCall (hs : s.Room k) :
    Settles (k + 1) (Eval.closeCall o) (Eval.closeCall o) s := by
  have hpopped : State.Room { s with env := s.env.popFrame.2 } (k + 1) := by
    unfold State.Room at hs ⊢
    simp only [Environment.popFrame, Array.size_pop]
    omega
  exact (Routine.leaveScope.bind fun _ => Routine.callResult).settles hpopped

include h

theorem invoke (hd : d.Tame B) (hos : List.Forall₂ R os os) :
    Ends (Decl.Tame B) k R (Eval.invoke ev d os span) (Eval.invoke ev' d os span) := by
  refine (smooth .ofExcept).bind (P := Same) (.ofExcept fun _ _ => rfl) fun R₁ _ hle₁ _ => ?_
  intro s hst hs
  obtain ⟨hopen, hpos⟩ := settles_openCall d span hs
  refine hopen.bind fun u t hr ht => ?_
  obtain ⟨j, rfl⟩ : ∃ j, k = j + 1 := ⟨k - 1, by have := hpos u t hr; omega⟩
  have hended : Ended (Decl.Tame B) R₁ s s _ (Eval.openCall d span s) (Eval.openCall d span s) :=
    Parallel.openCall hd s s hst
  rw [hr] at hended
  obtain ⟨R₂, hgrow, hst', -⟩ := hended
  have hos₂ : List.Forall₂ R₂ os os := (hos.imp hle₁).imp hgrow.le
  have hbody : Ends (Decl.Tame B) j R₂
      (do
        Eval.bindFixed d.fixed os
        Eval.bindRest d (os.drop d.fixed.length)
        ev d.body)
      (do
        Eval.bindFixed d.fixed os
        Eval.bindRest d (os.drop d.fixed.length)
        ev' d.body) := by
    refine (smooth (.bindFixed _ _)).bind (.bindFixed hos₂) fun R₃ _ hle₃ _ => ?_
    refine (smooth .bindRest).bind (.bindRest (List.forall₂_drop _ (hos₂.imp hle₃)))
      fun R₄ _ _ _ => ?_
    exact h.body rfl hd
  have hcall := (hbody t hst' ht).bind (l := j + 1) (f := Eval.closeCall) (g := Eval.closeCall)
    fun o u _ hu => settles_closeCall hu
  simpa only [bind_assoc] using hcall

theorem call {f : Node} {args : List Node} (hf : f.Tame H) (hargs : ∀ m ∈ args, m.Tame H) :
    Ends (Decl.Tame B) k R (Eval.call ev span f args) (Eval.call ev' span f args) := by
  have hwithin : ∀ m ∈ args, Within (Decl.Tame B) m := fun m hm => h.within (hargs m hm)
  refine (callee h hf).bind (.callee h.mirrored (h.within hf)) fun R₁ o _ ho => ?_
  refine valueOf ho fun v hv => ?_
  cases hv with
  | tuple | vector => exact smooth .raise
  | @atom a ha =>
    cases a with
    | builtin b =>
      have hrefs : Mirrored (Decl.Tame B) (Eval.reference ev) := .references h.mirrored
      refine (operands hrefs hwithin fun m hm {R} => reference h (hargs m hm)).bind
        (.operands hrefs hwithin) fun R₂ os _ hos => ?_
      exact callBuiltin hos
    | function d =>
      refine (operands h.mirrored hwithin fun m hm {R} => h.node (hargs m hm)).bind
        (.operands h.mirrored hwithin) fun R₂ os _ hos => ?_
      exact invoke h ha hos
    | _ => exact smooth .raise

end

end Ends

/-! ### Loops -/

/-- A private object is still private after an evaluation that does not know it. -/
theorem Private.settles {D : Decl → Prop} {x y : Eval α} {f g : α → Eval β}
    {P : Pairing → α → α → Prop} (hp : Private D R S s s os os) (hs : s.Room k)
    (hx : Ends D k R x y) (hpar : Parallel D R x x P)
    (hf : ∀ R' S' a t, Private D R' S' t t os os → P R' a a → t.Room k → Settles k (f a) (g a) t) :
    Settles k (x >>= f) (y >>= g) s := by
  refine (hx s hp.base hs).bind fun a t hr ht => ?_
  have hended := hpar s s hp.base
  rw [hr] at hended
  obtain ⟨R', hgrow, hst, hP⟩ := hended
  exact hf R' _ a t (hp.carry hgrow hst) hP ht

/-- Two ways to do a step of a loop, which both settle for an item that nobody else knows. -/
def StepsSettle (D : Decl → Prop) (k : Nat) (step step' : ObjectId → Eval Bool) : Prop :=
  ∀ R S s c, Private D R S s s [c] [c] → s.Room k → Settles k (step c) (step' c) s

theorem Settling.iterate (h : Settling B H k ev ev') {iterator body : Node} {fresh : Option Place}
    (hiterator : iterator.Tame H) (hbody : body.Tame H)
    (hfresh : ∀ R, ∀ a ∈ fresh, SamePlace R a a) :
    StepsSettle (Decl.Tame B) k (Eval.iterate ev iterator body fresh)
      (Eval.iterate ev' iterator body fresh) := by
  intro R S s c hp hs
  refine hp.settles hs (.smooth .isBroken) .isBroken fun R₁ S₁ isBroken t hp₁ _ ht => ?_
  cases isBroken with
  | true => exact Routine.pure.settles ht
  | false =>
    refine hp₁.settles ht (.smooth .checkInterrupt) .checkInterrupt fun R₂ S₂ _ u hp₂ _ hu => ?_
    have hrest : ∀ R₃ S₃ a w, Private (Decl.Tame B) R₃ S₃ w w [c] [c] →
        SamePlace R₃ a a → w.Room k → Settles k
          (do
            Eval.store a c iterator.span
            let _ ← Eval.statements ev body.statements
            return !(← Eval.isBroken))
          (do
            Eval.store a c iterator.span
            let _ ← Eval.statements ev' body.statements
            return !(← Eval.isBroken)) w := by
      intro R₃ S₃ a w hp₃ ha hw
      refine (Routine.store.settles hw).bind fun _ w' hr hw' => ?_
      -- Once it is stored, the item belongs to the program.
      have hended : Ended _ S₃ w w Same (Eval.store a c iterator.span w)
          (Eval.store a c iterator.span w) :=
        hp₃.store ha
      rw [hr] at hended
      obtain ⟨R₄, -, hst, -⟩ := hended
      have hstatements := Ends.statements h (R := R₄) hbody.statements
      exact hstatements.finish (fun _ => Routine.isBroken.bind fun _ => .pure) w' hst hw'
    cases fresh with
    | some a => exact hrest R₂ S₂ a u hp₂ (hfresh R₂ a rfl) hu
    | none =>
      exact hp₂.settles hu (Ends.place h hiterator) (.place h.mirrored (h.within hiterator)) hrest

namespace Ends

section

variable {D : Decl → Prop} {step step' : ObjectId → Eval Bool} (hstep : StepsSettle D k step step')
  (hpar : Parallel.Stepping D step)

include hstep hpar

/-- Goes on after a step of a loop. -/
theorem settles_step {c : ObjectId} {f g : Bool → Eval β}
    (hp : Private D R S s s [c] [c]) (hs : s.Room k)
    (hf : ∀ R' b, S ≤ R' → Ends D k R' (f b) (g b)) :
    Settles k (step c >>= f) (step' c >>= g) s := by
  refine (hstep R S s c hp hs).bind fun b t hr ht => ?_
  have hended := hpar R S s s c c hp
  rw [hr] at hended
  obtain ⟨R', hgrow, hst, -⟩ := hended
  exact hf R' b hgrow.le t hst ht

theorem forRange {count : Nat} {i : Int} :
    Ends D k R (Eval.forRange step count i) (Eval.forRange step' count i) := by
  induction count generalizing R i with
  | zero => exact smooth .pure
  | succ count ih =>
    intro s hst hs
    refine (Routine.allocAtom.settles hs).bind fun c t hr ht => ?_
    obtain ⟨c', d', S, t', u', hc, hd, -, hp⟩ :=
      allocAtom_private (a := .int (.ofInt i)) hst trivial
    rw [hr] at hc hd
    cases hc
    cases hd
    refine settles_step hstep hpar hp ht fun R' b _ => ?_
    cases b with
    | true => exact ih
    | false => exact smooth .pure

/-- The items are fixed when the loop begins, whatever becomes of the vector they come from. -/
theorem forElements (hos : List.Forall₂ R os os) :
    Ends D k R (Eval.forElements step os) (Eval.forElements step' os) := by
  induction os generalizing R with
  | nil => exact smooth .pure
  | cons o os ih =>
    obtain ⟨ho, hos⟩ := List.forall₂_cons.mp hos
    intro s hst hs
    refine (copy ho s hst hs).bind fun c t hr ht => ?_
    obtain ⟨c', d', S, t', u', hc, hd, hgrow, hp⟩ := copy_private hst ho
    rw [hr] at hc hd
    cases hc
    cases hd
    refine settles_step hstep hpar hp ht fun R' b hle => ?_
    cases b with
    | true => exact ih ((hos.imp hgrow.le).imp hle)
    | false => exact smooth .pure

end

variable (h : Settling B H k ev ev')

include h

theorem forLoop {iterator iterable body : Node} (hiterator : iterator.Tame H)
    (hiterable : iterable.Tame H) (hbody : body.Tame H) :
    Ends (Decl.Tame B) k R (Eval.forLoop ev iterator iterable body)
      (Eval.forLoop ev' iterator iterable body) := by
  have hwithin := (h.within hbody).statements
  refine (h.node hiterable).bind (h.parallel hiterable) fun R₁ o _ ho => ?_
  refine (smooth .itemsOf).bind (.itemsOf ho) fun R₂ items _ hitems => ?_
  refine (smooth .openLoop).bind (.openLoop hwithin) fun R₃ _ hle₃ _ => ?_
  refine (smooth .freshIterator).bind .freshIterator fun R₄ fresh hle₄ ⟨_, hfresh⟩ => ?_
  have hsettle := h.iterate hiterator hbody hfresh
  have hstep : Parallel.Stepping (Decl.Tame B) (Eval.iterate ev iterator body fresh) :=
    fun _ _ _ _ _ _ hp => hp.iterate h.mirrored (h.within hiterator) hwithin hfresh
  cases hitems with
  | range r => exact (forRange hsettle hstep).finish fun _ => .closeLoop
  | elements hos =>
    exact (forElements hsettle hstep ((hos.imp hle₃).imp hle₄)).finish fun _ => .closeLoop

/-! ### All forms -/

theorem form {limit limit' : Nat} (hn : n.Tame (H + 1)) :
    Ends (Decl.Tame B) k R (Eval.form ev limit n) (Eval.form ev' limit' n) := by
  have hoperands : ∀ {nodes : List Node} {R}, (∀ m ∈ nodes, m.Tame H) →
      Ends (Decl.Tame B) k R (Eval.operands ev nodes) (Eval.operands ev' nodes) := fun hnodes =>
    operands h.mirrored (fun m hm => h.within (hnodes m hm)) fun m hm {_} => h.node (hnodes m hm)
  have hfree := hn.free
  have hheight := hn.height
  cases n with
  | none _ | record _ => exact smooth .allocNone
  | bool _ b => exact smooth .allocAtom
  | literal _ l => exact smooth .allocAtom
  | emptyList _ => exact smooth .alloc
  | list _ items | tuple _ items =>
    exact (hoperands (Node.tame_of_mem hfree (Nat.le_of_succ_le_succ hheight))).finish
      fun _ => .alloc
  | range _ a b =>
    obtain ⟨ha, hb⟩ := hn.pair rfl rfl
    exact range h ha hb
  | var span ident => exact name
  | subscript span a b =>
    obtain ⟨ha, hb⟩ := hn.pair rfl rfl
    exact subscript h ha hb
  | assign span a b =>
    obtain ⟨ha, hb⟩ := hn.pair rfl rfl
    exact assign h ha hb
  | binary span op a b =>
    obtain ⟨ha, hb⟩ := hn.pair rfl rfl
    exact binary h ha hb
  | compare span op a b =>
    obtain ⟨ha, hb⟩ := hn.pair rfl rfl
    exact comparison h (Node.chain_compare span ha.chain hb)
  | call span f args =>
    simp only [Node.isWhileFree, Bool.and_eq_true] at hfree
    simp only [Node.height] at hheight
    exact call h ⟨hfree.1, by omega⟩ (Node.tame_of_mem hfree.2 (by omega))
  | function _ id ident params result body => exact smooth .functionObject
  | self span => exact smooth .selfFunction
  | letVar _ ident _ init =>
    exact letVar h (Node.tame_of_mem_option hfree (Nat.le_of_succ_le_succ hheight))
  | ret span value =>
    exact returnFrom h (Node.tame_of_mem_option hfree (Nat.le_of_succ_le_succ hheight))
  | breakLoop span value =>
    exact breakFrom h (Node.tame_of_mem_option hfree (Nat.le_of_succ_le_succ hheight))
  | continueLoop span => exact smooth .continueFrom
  | block _ nodes => exact block h (Node.tame_of_mem hfree (Nat.le_of_succ_le_succ hheight))
  | cond _ test yes no =>
    simp only [Node.isWhileFree, Bool.and_eq_true] at hfree
    simp only [Node.height] at hheight
    exact conditional h ⟨hfree.1.1, by omega⟩ ⟨hfree.1.2, by omega⟩
      (Node.tame_of_mem_option hfree.2 (by omega))
  | forLoop _ iterator iterable body =>
    simp only [Node.isWhileFree, Bool.and_eq_true] at hfree
    simp only [Node.height] at hheight
    exact forLoop h ⟨hfree.1.1, by omega⟩ ⟨hfree.1.2, by omega⟩ ⟨hfree.2, by omega⟩
  | whileLoop _ test body => cases hfree

end Ends

/-- With `k` calls to open and a tree of height `H`, evaluation goes no deeper than this. -/
def depth (B H k : Nat) : Nat := k * (B + 1) + H

theorem within_body (hd : d.Tame B) : Within (Decl.Tame B) d.body :=
  fun _ he => d.body.tame_of_mem_decls hd he

/-- Two allowances of steps that are both enough lead to the same end. -/
theorem ends_node {fuel fuel' : Nat} (hfuel : depth B H k ≤ fuel) (hfuel' : depth B H k ≤ fuel')
    (hle : H ≤ B) (hn : n.Tame H) : Ends (Decl.Tame B) k R (node fuel n) (node fuel' n) := by
  induction fuel generalizing fuel' H k R n with
  | zero =>
    have hpos := n.height_pos
    have hH := hn.height
    simp only [depth] at hfuel
    omega
  | succ fuel ih =>
    have hpos := n.height_pos
    have hH := hn.height
    obtain ⟨H, rfl⟩ : ∃ G, H = G + 1 := ⟨H - 1, by omega⟩
    obtain ⟨fuel', rfl⟩ : ∃ f, fuel' = f + 1 := ⟨fuel' - 1, by simp only [depth] at hfuel'; omega⟩
    simp only [depth] at hfuel hfuel'
    have hsettling : Settling B H k (node fuel) (node fuel') := {
      le := by omega
      mirrored := mirrored_node (fun _ => within_body) fuel
      node := fun hm => ih (by simp only [depth]; omega) (by simp only [depth]; omega) (by omega) hm
      body := by
        rintro R j d rfl hd
        rw [Nat.add_mul] at hfuel hfuel'
        exact ih (H := B) (by simp only [depth]; omega)
          (by simp only [depth]; omega) (by omega) hd }
    refine (Ends.smooth .checkInterrupt).bind .checkInterrupt fun R₁ _ _ _ => ?_
    exact (Ends.smooth .trace).bind .trace fun R₂ _ _ _ => Ends.form hsettling hn

/-! ### A loop without end -/

/-- A loop whose test always holds, and that does nothing. -/
def endless : Node := .whileLoop none (.bool none true) (.block none [])

/-- The innermost loop goes on: it was not left, and nobody interrupts. -/
structure GoesOn (s : State) : Prop where
  isInterrupted : s.isInterrupted = false
  isBroken : (s.env.currentLoop?.map (·.isBroken)).getD true = false

theorem checkInterrupt_eq (hs : s.isInterrupted = false) : checkInterrupt span s = .ok () s := by
  simp only [checkInterrupt, read, Bind.bind, EStateM.bind, hs]
  rfl

theorem trace_eq : ∃ log, trace n s = .ok () { s with log } := by
  have hread : read (·.isTraced) s = .ok s.isTraced s := rfl
  simp only [trace]
  rw [bind_ok hread]
  split
  · exact ⟨_, rfl⟩
  · exact ⟨s.log, rfl⟩

theorem GoesOn.condition (hs : GoesOn s) (fuel : Nat) :
    ∃ t, Eval.condition (node (fuel + 1)) (.bool none true) s = .ok true t ∧ GoesOn t := by
  obtain ⟨log, htrace⟩ := trace_eq (n := .bool none true) (s := s)
  have hnode : node (fuel + 1) (.bool none true) s = .ok s.heap.store.next
      { s with log, heap := (s.heap.alloc (.atom (.bool true))).2 } := by
    simp only [node]
    rw [bind_ok (checkInterrupt_eq hs.isInterrupted), bind_ok htrace]
    rfl
  have hvalue : (s.heap.alloc (.atom (.bool true))).2.store.value s.heap.store.next =
      .atom (.bool true) := by
    simp [Heap.alloc, Store.value_push]
  refine ⟨{ s with log, heap := (s.heap.alloc (.atom (.bool true))).2 }, ?_, hs.1, hs.2⟩
  simp only [Eval.condition]
  rw [bind_ok hnode, bind_ok valueOf_eq, hvalue]
  rfl

theorem GoesOn.orNone (hs : GoesOn s) (last : Option ObjectId) :
    ∃ o t, (match last with | some o => Pure.pure o | none => allocNone : Eval ObjectId) s =
      .ok o t ∧ GoesOn t := by
  cases last with
  | none => exact ⟨_, _, rfl, hs.isInterrupted, hs.isBroken⟩
  | some o => exact ⟨o, s, rfl, hs⟩

theorem GoesOn.statements (hs : GoesOn s) (ev : Node → Eval ObjectId) :
    ∃ o t, Eval.statements ev [] s = .ok o t ∧ GoesOn t := by
  have hon : GoesOn { s with
      env := (s.env.modifyScope s.env.currentIndex
        ({ · with isSkipped := false, last := none })).modifyScope
          s.env.currentIndex ({ · with last := none }) } := ⟨hs.isInterrupted, hs.isBroken⟩
  exact hon.orNone _

theorem GoesOn.whileHolds (hs : GoesOn s) (fuel limit : Nat) :
    ∃ t, Eval.whileHolds (node fuel) (.bool none true) (.block none []) limit s =
      .error .exhausted t := by
  induction limit generalizing s with
  | zero => exact ⟨s, rfl⟩
  | succ limit ih =>
    have hbroken : Eval.isBroken s = .ok false s := congrArg (EStateM.Result.ok · s) hs.isBroken
    simp only [Eval.whileHolds]
    rw [bind_ok hbroken]
    simp only [Bool.false_eq_true, if_false]
    rw [bind_ok (checkInterrupt_eq hs.isInterrupted)]
    cases fuel with
    | zero => exact ⟨s, rfl⟩
    | succ fuel =>
      obtain ⟨t, htest, ht⟩ := hs.condition fuel
      rw [bind_ok htest]
      obtain ⟨o, u, hbody, hu⟩ := ht.statements (node (fuel + 1))
      obtain ⟨w, hw⟩ := ih hu
      refine ⟨w, ?_⟩
      rw [← hw]
      exact bind_ok hbody

/-- A conditional loop need not end: with however many steps, they run out. -/
theorem exhausted_endless (hs : s.isInterrupted = false)
    (hfloor : s.env.loopFloor ≤ s.env.loops.size) (fuel : Nat) :
    ∃ t, node fuel endless s = .error .exhausted t := by
  cases fuel with
  | zero => exact ⟨s, rfl⟩
  | succ fuel =>
    obtain ⟨log, htrace⟩ := trace_eq (n := endless) (s := s)
    have hopen : GoesOn
        { s with log, env := (s.env.enter .loop []).pushLoop s.env.scopes.size } := by
      refine ⟨hs, ?_⟩
      have hlt : ((s.env.enter .loop []).pushLoop s.env.scopes.size).loopFloor <
          s.env.loops.size + 1 :=
        Nat.lt_succ_of_le hfloor
      simp only [Environment.currentLoop?]
      rw [if_pos (by simpa [Environment.pushLoop, Environment.enter] using hlt)]
      simp [Environment.pushLoop]
    obtain ⟨t, ht⟩ := hopen.whileHolds fuel fuel
    refine ⟨t, ?_⟩
    simp only [node]
    rw [bind_ok (checkInterrupt_eq hs), bind_ok htrace]
    have hloop : form (node fuel) fuel endless { s with log } =
      (Eval.whileHolds (node fuel) (.bool none true) (.block none []) fuel >>= fun _ => closeLoop)
        { s with log, env := (s.env.enter .loop []).pushLoop s.env.scopes.size } := rfl
    rw [hloop]
    simp only [Bind.bind, EStateM.bind, ht]

end Eval
end Scripting
