import Mathlib.Tactic.Common
import Scripting.Proofs.Eval.Tracking
import Scripting.Proofs.Renaming.Operands

/-! Evaluations that come to an end by themselves. Two of them, with different allowances of steps,
are followed side by side: neither runs out of steps, and they end alike. -/
namespace Scripting

/-- No more than `k` further calls can be open at once. -/
def State.Room (s : State) (k : Nat) : Prop := s.env.maxCallDepth ≤ s.env.frames.size + k

theorem State.Room.congr {s t : State} {k : Nat} (h : s.Room k) (hst : s.env.SameDepth t.env) :
    t.Room k := by
  obtain ⟨hsize, hdepth⟩ := hst
  unfold Room at h ⊢
  omega

namespace Environment

variable {e : Environment} {s : Store} {o : ObjectId}

theorem Renamed.get_self {D : Decl → Prop} {R : Pairing} {name : String} {span : Option Span}
    (h : e.Renamed D R e) (ho : e.get name span = .ok o) : R o o := by
  obtain ⟨x, hx, -⟩ | ⟨p, q, hp, hq, hpq⟩ : (∃ x, e.get name span = .error x ∧ _) ∨
      ∃ p q, e.get name span = .ok p ∧ e.get name span = .ok q ∧ R p q := h.get
  · rw [hx] at ho
    cases ho
  · rw [ho] at hp hq
    cases hp
    cases hq
    exact hpq

end Environment

namespace Eval

variable {α β : Type} {D : Decl → Prop} {k : Nat} {R : Pairing} {x y : Eval α}
  {f g : α → Eval β} {s : State} {o : ObjectId} {os : List ObjectId} {span : Option Span}

/-! ### Routines -/

/-- A routine that takes no steps to speak of, and opens and closes no call. -/
def Smooth (x : Eval α) : Prop := ∀ s,
  match x s with
  | .ok _ t => s.env.SameDepth t.env
  | .error stop _ => stop ≠ .exhausted

theorem Smooth.bind (hx : Smooth x) (hf : ∀ a, Smooth (f a)) : Smooth (x >>= f) := by
  intro s
  have hs := hx s
  simp only [Bind.bind, EStateM.bind]
  cases hr : x s with
  | error stop t =>
    rw [hr] at hs
    exact hs
  | ok a t =>
    rw [hr] at hs
    have ht := hf a t
    simp only at hs ⊢
    cases hr' : f a t with
    | error stop u =>
      rw [hr'] at ht
      exact ht
    | ok b u =>
      rw [hr'] at ht
      exact hs.trans ht

theorem Routine.smooth (h : Routine .smooth x) : Smooth x := by
  induction h with
  | bind _ _ ihx ihf => exact ihx.bind ihf
  | raise => exact fun _ h => nomatch h
  | functionObject =>
    intro s
    rw [functionObject_eq]
    simp only [objectFor]
    split <;> exact ⟨rfl, rfl⟩
  | @refill o f =>
    intro s
    simp only [Eval.refill, Eval.valueOf, Bind.bind, EStateM.bind, Eval.read]
    cases f (s.heap.store.value o) with
    | error e => exact fun h => nomatch h
    | ok es => exact ⟨rfl, rfl⟩
  | walk h | exhausted h => exact absurd rfl h
  | restack _ hdepth => exact fun s => hdepth s.env s.heap.store
  | reframe h => cases h
  | _ => exact fun _ => ⟨rfl, rfl⟩

/-! ### Ends -/

/-- The evaluations end alike, not for want of steps. After a value there is as little room for
calls as is given. -/
def Settles (k : Nat) (x y : Eval α) (s : State) : Prop :=
  x s = y s ∧
    match x s with
    | .ok _ t => t.Room k
    | .error stop _ => stop ≠ .exhausted

theorem Settles.bind {l : Nat} (hx : Settles k x y s)
    (hf : ∀ a t, x s = .ok a t → t.Room k → Settles l (f a) (g a) t) :
    Settles l (x >>= f) (y >>= g) s := by
  obtain ⟨heq, hend⟩ := hx
  simp only [Settles, Bind.bind, EStateM.bind, ← heq]
  cases hr : x s with
  | error stop t =>
    rw [hr] at hend
    exact ⟨rfl, hend⟩
  | ok a t =>
    rw [hr] at hend
    exact hf a t hr hend

theorem Routine.settles (h : Routine .smooth x) (hs : s.Room k) : Settles k x x s := by
  have hx := h.smooth s
  refine ⟨rfl, ?_⟩
  cases hr : x s with
  | error stop t =>
    rw [hr] at hx
    exact hx
  | ok a t =>
    rw [hr] at hx
    exact hs.congr hx

/-- The evaluations settle in every state that is in order, in which objects have trees and
functions are among the given ones. -/
def Ends (D : Decl → Prop) (k : Nat) (R : Pairing) (x y : Eval α) : Prop :=
  ∀ s, s.Renamed D R s → s.Room k → Settles k x y s

namespace Ends

theorem smooth (h : Routine .smooth x) : Ends D k R x x := fun _ _ hs => h.settles hs

/-- Goes on from the state after the first evaluation, which is in order if it runs in parallel with
itself. -/
theorem bind {P : Pairing → α → α → Prop} (hx : Ends D k R x y) (hpar : Parallel D R x x P)
    (hf : ∀ R' a, R ≤ R' → P R' a a → Ends D k R' (f a) (g a)) :
    Ends D k R (x >>= f) (y >>= g) := by
  intro s hst hs
  refine (hx s hst hs).bind fun a t hr ht => ?_
  have hended := hpar s s hst
  rw [hr] at hended
  obtain ⟨R', hgrow, hst', hP⟩ := hended
  exact hf R' a hgrow.le hP t hst' ht

theorem finish (hx : Ends D k R x y) (hf : ∀ a, Routine .smooth (f a)) :
    Ends D k R (x >>= f) (y >>= f) :=
  fun s hst hs => (hx s hst hs).bind fun a _ _ ht => (hf a).settles ht

theorem read {r : State → α} {P : α → Prop} (hr : ∀ s, s.Renamed D R s → P (r s))
    (hf : ∀ a, P a → Ends D k R (f a) (g a)) : Ends D k R (Eval.read r >>= f) (Eval.read r >>= g) :=
  fun s hst hs => hf (r s) (hr s hst) s hst hs

theorem valueOf {f g : Value → Eval β} (ho : R o o)
    (hf : ∀ v : Value, v.Renamed D R v → Ends D k R (f v) (g v)) :
    Ends D k R (Eval.valueOf o >>= f) (Eval.valueOf o >>= g) :=
  read (fun _ hst => hst.store.value ho) hf

theorem still (h : Routine .still x) (hx : ∀ s, s.Renamed D R s → ∃ a t, x s = .ok a t) :
    Ends D k R x x := by
  intro s hst hs
  obtain ⟨a, t, hr⟩ := hx s hst
  have henv := h.still s
  rw [hr] at henv
  refine ⟨rfl, ?_⟩
  rw [hr]
  simp only at henv ⊢
  rwa [State.Room, henv]

/-! ### Trees -/

theorem copy (ho : R o o) : Ends D k R (Eval.copy o) (Eval.copy o) := by
  refine still .copy fun s hst => ?_
  obtain ⟨c, -, -, t, -, hcopy, -⟩ := copy_private hst ho
  exact ⟨c, t, hcopy⟩

theorem copyAll (hos : List.Forall₂ R os os) : Ends D k R (Eval.copyAll os) (Eval.copyAll os) := by
  refine still .copyAll fun s hst => ?_
  obtain ⟨es, -, -, t, -, hcopy, -⟩ := copyAll_private hst hos
  exact ⟨es, t, hcopy⟩

theorem textOf (ho : R o o) : Ends D k R (Eval.textOf o) (Eval.textOf o) := by
  refine still .textOf fun s hst => ?_
  obtain ⟨x, htree, -, -⟩ := hst.store.exists_tree ho
  exact ⟨x.text, s, by simp only [Eval.textOf, Bind.bind, EStateM.bind, treeOf_eq htree]; rfl⟩

/-! ### Builtins -/

theorem writeAll {n : Nat} (hos : List.Forall₂ R os os) :
    Ends D k R (Eval.writeAll os n) (Eval.writeAll os n) := by
  induction os generalizing R n with
  | nil => exact smooth .pure
  | cons o os ih =>
    obtain ⟨ho, hos⟩ := List.forall₂_cons.mp hos
    refine (textOf ho).bind (.textOf ho) fun R₁ text hle₁ _ => ?_
    refine (smooth .write).bind .write fun R₂ _ hle₂ _ => ?_
    exact ih ((hos.imp hle₁).imp hle₂)

theorem textsOf (hos : List.Forall₂ R os os) : Ends D k R (Eval.textsOf os) (Eval.textsOf os) := by
  induction os generalizing R with
  | nil => exact smooth .pure
  | cons o os ih =>
    obtain ⟨ho, hos⟩ := List.forall₂_cons.mp hos
    refine (textOf ho).bind (.textOf ho) fun R₁ text hle _ => ?_
    exact (ih (hos.imp hle)).finish fun _ => .pure

theorem render (hos : List.Forall₂ R os os) :
    Ends D k R (Eval.render os span) (Eval.render os span) := by
  cases os with
  | nil => exact smooth .raise
  | cons template rest =>
    obtain ⟨htemplate, hrest⟩ := List.forall₂_cons.mp hos
    refine valueOf htemplate fun v _ => ?_
    split
    · refine (textsOf (List.forall₂_take _ hrest)).finish fun texts => ?_
      split
      · exact .pure
      · exact .raise
    · exact smooth .raise

/-- The vector that grows is copied in the end, when its elements have trees as before. -/
theorem append (hos : List.Forall₂ R os os) :
    Ends D k R (Eval.append os span) (Eval.append os span) := by
  rcases os with _ | ⟨target, _ | ⟨item, items⟩⟩
  · exact smooth .raise
  · exact smooth .raise
  · obtain ⟨htarget, hitems⟩ := List.forall₂_cons.mp hos
    intro s hst hs
    refine (copyAll hitems s hst hs).bind fun es t hcopy ht => ?_
    obtain ⟨es', fs, S, t', u', hes, hfs, hgrow, hprivate⟩ := copyAll_private hst hitems
    rw [hcopy] at hes hfs
    cases hes
    cases hfs
    have hvalue := hprivate.all.store.value (hgrow.le _ _ htarget)
    refine Settles.bind (k := k) (Routine.settles (.read fun _ _ => rfl) ht) fun v u hv hu => ?_
    cases hv
    dsimp only
    cases hold : t.heap.store.value target with
    | atom a => exact Routine.raise.settles hu
    | tuple fs => exact Routine.raise.settles hu
    | vector fs =>
      rw [hold] at hvalue
      cases hvalue with
      | vector hpairs =>
        have hended : Ended D S t t Same (Eval.setValue target (.vector (fs ++ es)) t)
            (Eval.setValue target (.vector (fs ++ es)) t) :=
          hprivate.setVector htarget hold hold
            (by simpa using List.rel_append hpairs hprivate.pairs)
            (by simp) (by simp)
        refine Settles.bind (k := k) ⟨rfl, hu⟩ fun _ w hw hroom => ?_
        rw [hw] at hended
        obtain ⟨S', hgrow', hst', -⟩ := hended
        exact copy (hgrow'.le _ _ (hgrow.le _ _ htarget)) w hst' hroom

theorem applyPrimitive {b : Primitive} (hos : List.Forall₂ R os os) :
    Ends D k R (Eval.applyPrimitive b os span) (Eval.applyPrimitive b os span) := by
  cases b with
  | print => exact (writeAll hos).finish fun _ => .allocAtom
  | println => exact (writeAll hos).finish fun _ => Routine.write.bind fun _ => .allocAtom
  | printf => exact (render hos).finish fun _ => Routine.write.bind fun _ => .allocAtom
  | format => exact (render hos).finish fun _ => .allocAtom
  | append => exact append hos
  | _ => exact smooth (.applyShallow rfl)

theorem callBuiltin {b : Builtin} (hos : List.Forall₂ R os os) :
    Ends D k R (Eval.callBuiltin b os span) (Eval.callBuiltin b os span) := by
  refine read (P := fun _ => True) (fun _ _ => trivial) fun kinds _ => ?_
  refine (smooth .ofExcept).bind (P := Same) (.ofExcept fun _ _ => rfl) fun R₁ _ hle _ => ?_
  exact applyPrimitive (hos.imp hle)

/-! ### Names and operators -/

theorem name {ident : Ident} : Ends D k R (Eval.name span ident) (Eval.name span ident) := by
  refine read (P := fun _ => True) (fun _ _ => trivial) fun found _ => ?_
  cases found with
  | some b => exact smooth .allocAtom
  | none =>
    refine read (P := fun _ => True) (fun _ _ => trivial) fun isVariable _ => ?_
    cases isVariable with
    | false =>
      refine smooth (Routine.look (fun _ _ => rfl) fun decl => ?_)
      cases decl with
      | some d => exact .functionObject
      | none => exact .raise
    | true =>
      refine read (P := fun a => ∀ o, a = .ok o → R o o) (fun s hst _ ho => hst.env.get_self ho)
        fun found hfound => ?_
      cases found with
      | error e => exact smooth .raise
      | ok o => exact copy (hfound o rfl)

theorem compute {op : BinaryOp} {v w : Value} (hv : v.Renamed D R v) (hw : w.Renamed D R w) :
    Ends D k R (Eval.compute op v w span) (Eval.compute op v w span) := by
  unfold Eval.compute
  split
  · exact smooth (Routine.ofExcept.bind fun _ => .pure)
  · next es fs =>
    cases hv with
    | vector hes =>
      cases hw with
      | vector hfs =>
        split
        · refine (copyAll ?_).finish fun _ => .pure
          simpa using List.rel_append hes hfs
        · exact smooth .raise
  · split <;> exact smooth .raise

end Ends
end Eval
end Scripting
