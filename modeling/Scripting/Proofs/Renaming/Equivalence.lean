import Mathlib.Logic.Relation
import Mathlib.Tactic.Common
import Scripting.Proofs.Renaming.Parallel

/-! Being the same up to numbers goes both ways and can be chained, so whatever has a counterpart is
a counterpart of itself. -/
namespace Scripting

open Relation

variable {D : Decl → Prop} {R S : Pairing}

theorem forall₂_comp {os ps qs : List ObjectId} (h : List.Forall₂ R os ps)
    (h' : List.Forall₂ S ps qs) :
    List.Forall₂ (Comp R S) os qs := by
  induction h generalizing qs with
  | nil =>
    cases h'
    exact .nil
  | cons hop _ ih =>
    cases h' with
    | cons hpq hrest => exact .cons ⟨_, hop, hpq⟩ (ih hrest)

theorem rel_flip {a b : Option ObjectId} (h : Option.Rel R a b) : Option.Rel (flip R) b a := by
  cases h with
  | none => exact .none
  | some hop => exact .some hop

theorem rel_comp {a b c : Option ObjectId} (h : Option.Rel R a b) (h' : Option.Rel S b c) :
    Option.Rel (Comp R S) a c := by
  cases h with
  | none =>
    cases h'
    exact .none
  | some hop =>
    cases h' with
    | some hpq => exact .some ⟨_, hop, hpq⟩

theorem Pointwise.flip {α β : Type} {r : α → β → Prop} {r' : β → α → Prop}
    {xs : Array α} {ys : Array β} (h : Pointwise r xs ys) (hr : ∀ x y, r x y → r' y x) :
    Pointwise r' ys xs :=
  List.Forall₂.imp (fun y x hxy => hr x y hxy) (List.Forall₂.flip h)

theorem Pointwise.comp {α β γ : Type} {r : α → β → Prop} {r' : β → γ → Prop} {r'' : α → γ → Prop}
    {xs : Array α} {ys : Array β} {zs : Array γ} (h : Pointwise r xs ys) (h' : Pointwise r' ys zs)
    (hr : ∀ x y z, r x y → r' y z → r'' x z) : Pointwise r'' xs zs := by
  rw [iff_getElem?]
  intro i
  rcases rel_cases (h.getElem? i) with ⟨hx, hy⟩ | ⟨x, y, hx, hy, hxy⟩
  · rcases rel_cases (h'.getElem? i) with ⟨-, hz⟩ | ⟨y', z, hy', -, -⟩
    · rw [hx, hz]
      exact .none
    · rw [hy] at hy'
      cases hy'
  · rcases rel_cases (h'.getElem? i) with ⟨hy', -⟩ | ⟨y', z, hy', hz, hyz⟩
    · rw [hy] at hy'
      cases hy'
    · rw [hy] at hy'
      cases hy'
      rw [hx, hz]
      exact .some (hr x y z hxy hyz)

namespace Value.Renamed

variable {v w x : Value}

theorem symm (h : Renamed D R v w) : Renamed D (flip R) w v := by
  cases h with
  | atom ha => exact .atom ha
  | tuple h => exact .tuple h.flip
  | vector h => exact .vector h.flip

theorem trans (h : Renamed D R v w) (h' : Renamed D S w x) : Renamed D (Comp R S) v x := by
  cases h with
  | atom ha =>
    cases h'
    exact .atom ha
  | tuple h =>
    cases h' with
    | tuple h' => exact .tuple (forall₂_comp h h')
  | vector h =>
    cases h' with
    | vector h' => exact .vector (forall₂_comp h h')

end Value.Renamed

namespace Store.Renamed

variable {s t u : Store}

theorem symm (h : s.Renamed D R t) : t.Renamed D (flip R) s where
  has := fun hop => (h.has hop).symm
  value := fun hop => (h.value hop).symm
  unique := fun hop hop' => (h.unique hop hop').imp Iff.symm (h.isFunction hop).mp
  left := h.right
  right := h.left

theorem trans (h : s.Renamed D R t) (h' : t.Renamed D S u) : s.Renamed D (Comp R S) u where
  has := fun ⟨_, hop, hpq⟩ => ⟨(h.has hop).1, (h'.has hpq).2⟩
  value := fun ⟨_, hop, hpq⟩ => (h.value hop).trans (h'.value hpq)
  unique := by
    rintro o q o' q' ⟨p, hop, hpq⟩ ⟨p', hop', hpq'⟩
    rcases h.unique hop hop' with hsame | hfun
    · rcases h'.unique hpq hpq' with hsame' | hfun
      · exact .inl (hsame.trans hsame')
      · exact .inr ((h.isFunction hop).mpr hfun)
    · exact .inr hfun
  left := h.left
  right := h'.right

end Store.Renamed

namespace Environment.Renamed

variable {e f g : Environment}

theorem symm (h : e.Renamed D R f) : f.Renamed D (flip R) e where
  scopes := h.scopes.flip fun _ _ hxy => ⟨hxy.kind.symm,
    hxy.vars.flip fun _ _ hvw => ⟨hvw.name.symm, rel_flip hvw.value⟩, hxy.functions.symm,
    fun d hd => hxy.known d (hxy.functions ▸ hd), hxy.isSkipped.symm, rel_flip hxy.last⟩
  frames := h.frames.flip fun _ _ hxy => ⟨hxy.decl.symm, hxy.decl ▸ hxy.known, hxy.isReturned.symm,
    rel_flip hxy.result, hxy.scopeDepth.symm, hxy.loopDepth.symm⟩
  loops := h.loops.flip fun _ _ hxy => ⟨hxy.scopeIndex.symm, hxy.isBroken.symm, rel_flip hxy.result⟩
  maxCallDepth := h.maxCallDepth.symm

theorem trans (h : e.Renamed D R f) (h' : f.Renamed D S g) : e.Renamed D (Comp R S) g where
  scopes := h.scopes.comp h'.scopes fun _ _ _ hxy hyz => ⟨hyz.kind.trans hxy.kind,
    hxy.vars.comp hyz.vars fun _ _ _ hvw hwx =>
      ⟨hwx.name.trans hvw.name, rel_comp hvw.value hwx.value⟩,
    hyz.functions.trans hxy.functions, hxy.known, hyz.isSkipped.trans hxy.isSkipped,
    rel_comp hxy.last hyz.last⟩
  frames := h.frames.comp h'.frames fun _ _ _ hxy hyz => ⟨hyz.decl.trans hxy.decl, hxy.known,
    hyz.isReturned.trans hxy.isReturned, rel_comp hxy.result hyz.result,
    hyz.scopeDepth.trans hxy.scopeDepth, hyz.loopDepth.trans hxy.loopDepth⟩
  loops := h.loops.comp h'.loops fun _ _ _ hxy hyz => ⟨hyz.scopeIndex.trans hxy.scopeIndex,
    hyz.isBroken.trans hxy.isBroken, rel_comp hxy.result hyz.result⟩
  maxCallDepth := h'.maxCallDepth.trans h.maxCallDepth

end Environment.Renamed

namespace Remembered

variable {s t u : Store} {fs gs hs : List (Nat × ObjectId)} {d : Decl}

theorem symm (h : Remembered D s t fs gs d) : Remembered D t s gs fs d where
  both := by
    intro p o hp ho
    obtain ⟨e, he, hid, hov, hpv⟩ := h.both o p ho hp
    exact ⟨e, he, hid, hpv, hov⟩
  left := h.right
  right := h.left

theorem exists_mem_of_lookup (h : gs.lookup d.id ≠ none) : ∃ p, (d.id, p) ∈ gs := by
  obtain ⟨p, hp⟩ := Option.ne_none_iff_exists'.mp h
  exact ⟨p, Step.mem_of_lookup hp⟩

/-- Both have the function that the one between them has, or the given one if it has none. -/
theorem trans (hd : D d) (h : Remembered D s t fs gs d) (h' : Remembered D t u gs hs d) :
    Remembered D s u fs hs d where
  both := by
    intro o q ho hq
    by_cases hnone : gs.lookup d.id = none
    · exact ⟨d, hd, rfl, h.left hnone o ho, h'.right hnone q hq⟩
    · obtain ⟨p, hp⟩ := exists_mem_of_lookup hnone
      obtain ⟨e, he, hid, hov, hpv⟩ := h.both o p ho hp
      obtain ⟨e', -, -, hpv', hqv⟩ := h'.both p q hp hq
      rw [hpv'] at hpv
      cases hpv
      exact ⟨e, he, hid, hov, hqv⟩
  left := by
    intro hlast o ho
    by_cases hnone : gs.lookup d.id = none
    · exact h.left hnone o ho
    · obtain ⟨p, hp⟩ := exists_mem_of_lookup hnone
      obtain ⟨e, -, -, hov, hpv⟩ := h.both o p ho hp
      rw [h'.left hlast p hp] at hpv
      cases hpv
      exact hov
  right := by
    intro hfirst q hq
    by_cases hnone : gs.lookup d.id = none
    · exact h'.right hnone q hq
    · obtain ⟨p, hp⟩ := exists_mem_of_lookup hnone
      obtain ⟨e, -, -, hpv, hqv⟩ := h'.both p q hp hq
      rw [h.right hfirst p hp] at hpv
      cases hpv
      exact hqv

end Remembered

namespace State.Renamed

variable {s t u : State}

theorem symm (h : s.Renamed D R t) : t.Renamed D (flip R) s where
  store := h.store.symm
  env := h.env.symm
  memo := fun d hd => (h.memo d hd).symm
  builtins := h.builtins.symm
  plain := h.builtins ▸ h.plain
  sink := h.sink.symm
  isInterrupted := h.isInterrupted.symm
  isTraced := h.isTraced.symm

theorem trans (h : s.Renamed D R t) (h' : t.Renamed D S u) : s.Renamed D (Comp R S) u where
  store := h.store.trans h'.store
  env := h.env.trans h'.env
  memo := fun d hd => (h.memo d hd).trans hd (h'.memo d hd)
  builtins := h'.builtins.trans h.builtins
  plain := h.plain
  sink := h'.sink.trans h.sink
  isInterrupted := h'.isInterrupted.trans h.isInterrupted
  isTraced := h'.isTraced.trans h.isTraced

end State.Renamed
end Scripting
