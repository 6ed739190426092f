import Mathlib.Tactic.Common
import Scripting.Proofs.Eval.Course
import Scripting.Proofs.Eval.Discipline

/-! Places outlast evaluations: what a place denotes when it is found, it denotes when it is
used. -/
namespace Scripting

/-! ### Variables -/

namespace Environment

variable {e e' : Environment} {s : Store} {o : ObjectId} {slot : Slot} {name : String}

theorem variableAt?_of_indexOf? {scope : Scope} {i j : Nat} (hi : e.scopes[i]? = some scope)
    (hj : scope.indexOf? name = some j) : ∃ v, e.variableAt? ⟨i, j⟩ = some v ∧ v.name = name := by
  obtain ⟨hlt, hname, -⟩ := Array.findIdx?_eq_some_iff_getElem.mp hj
  exact ⟨scope.vars[j], by simp [variableAt?, hi, hlt], by simpa using hname⟩

theorem variableAt?_of_lookupBelow {n : Nat} (h : e.lookupBelow name n = some slot) :
    ∃ v, e.variableAt? slot = some v ∧ v.name = name := by
  induction n with
  | zero => cases h
  | succ n ih =>
    simp only [lookupBelow] at h
    split at h
    · next j hj =>
      cases h
      obtain ⟨scope, hscope, hindex⟩ := Option.bind_eq_some_iff.mp hj
      exact variableAt?_of_indexOf? hscope hindex
    · exact ih h

/-- A name leads to a variable of that name. -/
theorem variableAt?_of_lookup (h : e.lookup name = some slot) :
    ∃ v, e.variableAt? slot = some v ∧ v.name = name := variableAt?_of_lookupBelow h

theorem variableAt?_declare (he : 0 < e.scopes.size) :
    ∃ v, (e.declare name).2.variableAt? (e.declare name).1 = some v := by
  have hcurrent : e.scopes[e.currentIndex]? = some e.current := by
    have hlt : e.scopes.size - 1 < e.scopes.size := by omega
    simp [currentIndex, current, Array.back?_eq_getElem?, hlt]
  simp only [declare]
  split
  · next j hj =>
    obtain ⟨v, hv, -⟩ := variableAt?_of_indexOf? hcurrent hj
    exact ⟨v, hv⟩
  · simp [variableAt?, modifyScope, Array.getElem?_modify, hcurrent]

theorem variableAt?_assign {q : Slot} : (e.assign s slot o).1.variableAt? q =
    if q = slot then (e.variableAt? q).map ({ · with value := some o }) else e.variableAt? q := by
  unfold assign
  split
  · next hnone =>
    split
    · next heq => simp [heq, hnone]
    · rfl
  · simp only [variableAt?, modifyScope, Array.getElem?_modify]
    obtain ⟨i, j⟩ := q
    obtain ⟨k, l⟩ := slot
    by_cases hi : k = i
    · subst hi
      cases e.scopes[k]? with
      | none => simp
      | some scope =>
        by_cases hj : l = j
        · subst hj
          simp [Array.getElem?_modify]
        · simp [Array.getElem?_modify, hj, Ne.symm hj]
    · have hne : ¬ (Slot.mk i j = Slot.mk k l) := by
        rintro ⟨⟩
        exact hi rfl
      simp [hi, hne]

/-- Stacks that are built upon have their variables where they were. -/
theorem Extends.variable {v : Variable} (h : e.Extends e') (hv : e.variableAt? slot = some v) :
    ∃ x y w, e.scopes[slot.scope]? = some x ∧ e'.scopes[slot.scope]? = some y ∧ x.Grown y ∧
      e'.variableAt? slot = some w ∧ w.name = v.name := by
  obtain ⟨x, hx, hxv⟩ := Option.bind_eq_some_iff.mp hv
  obtain ⟨y, hy, hgrown, -⟩ := h.scope slot.scope x hx
  have hname : x.names[slot.index]? = some v.name := by simp [Scope.names, hxv]
  have hname' : y.names[slot.index]? = some v.name := by
    obtain ⟨rest, hrest⟩ := hgrown.2.2
    have hlt := (List.getElem?_eq_some_iff.mp hname).1
    rw [← hrest, List.getElem?_append_left hlt, hname]
  obtain ⟨w, hw, hwname⟩ := Option.map_eq_some_iff.mp
    (show (y.vars[slot.index]?).map (·.name) = some v.name by simpa [Scope.names] using hname')
  exact ⟨x, y, w, hx, hy, hgrown, by simp [variableAt?, hy, hw], hwname⟩

end Environment

/-! ### Places -/

namespace Place

variable {s t u : State} {p q : Place} {o : ObjectId} {span : Option Span}

/-- The object at a place, if there is one. -/
def content (s : State) : Place → Option ObjectId
  | .variable slot => (s.env.variableAt? slot).bind (·.value)
  | .element vector index =>
    match s.heap.store.value vector with
    | .vector es => es[index]?
    | _ => none

/-- The place is there: the variable has been declared, or the vector is long enough. -/
def Stands (s : State) : Place → Prop
  | .variable slot => ∃ v, s.env.variableAt? slot = some v
  | .element vector index => ∃ es, s.heap.store.value vector = .vector es ∧ index < es.size

/-- The place is the same in both states: a variable of one name in one scope, or a position of one
vector. -/
def Same (s t : State) : Place → Prop
  | .variable slot =>
    ∃ x y v w, s.env.scopes[slot.scope]? = some x ∧ t.env.scopes[slot.scope]? = some y ∧
      x.Grown y ∧ s.env.variableAt? slot = some v ∧
        t.env.variableAt? slot = some w ∧ w.name = v.name
  | .element vector index => ∃ es fs, s.heap.store.value vector = .vector es ∧
      t.heap.store.value vector = .vector fs ∧ index < es.size ∧ index < fs.size

theorem Same.stands (h : p.Same s t) : p.Stands t := by
  rcases p with slot | ⟨vector, index⟩
  · obtain ⟨-, -, -, w, -, -, -, -, hw, -⟩ := h
    exact ⟨w, hw⟩
  · obtain ⟨-, fs, -, hfs, -, hlt⟩ := h
    exact ⟨fs, hfs, hlt⟩

/-- A place stays where it is as long as the stacks are built upon and objects last. -/
theorem Stands.same (h : p.Stands s) (henv : s.env.Extends t.env)
    (hstore : s.heap.store.Lasts t.heap.store) : p.Same s t := by
  rcases p with slot | ⟨vector, index⟩
  · obtain ⟨v, hv⟩ := h
    obtain ⟨x, y, w, hx, hy, hgrown, hw, hname⟩ := henv.variable hv
    exact ⟨x, y, v, w, hx, hy, hgrown, hv, hw, hname⟩
  · obtain ⟨es, hes, hlt⟩ := h
    obtain ⟨fs, hfs, hsize⟩ := hstore.vector hes
    exact ⟨es, fs, hes, hfs, hlt, Nat.lt_of_lt_of_le hlt hsize⟩

theorem Stands.load {vector : ObjectId} {index : Nat} (h : (element vector index).Stands s) :
    ∃ o, Eval.load (.element vector index) span s = .ok o s := by
  obtain ⟨es, hes, hlt⟩ := h
  refine ⟨es[index], ?_⟩
  simp only [Eval.load, Eval.valueOf, Bind.bind, EStateM.bind, Eval.read, hes,
    Array.getElem?_eq_getElem hlt]
  rfl

/-- What is stored at a place that stands is there afterwards, and nothing else has changed. -/
theorem Stands.store (h : p.Stands s) (o : ObjectId) (span : Option Span) :
    ∃ t, Eval.store p o span s = .ok () t ∧ s.env.Extends t.env ∧ s.heap.store.Lasts t.heap.store ∧
      p.content t = some o ∧ ∀ q, q ≠ p → q.content t = q.content s := by
  have hstore : Eval.Routine .free (Eval.store p o span) := .store
  rcases p with slot | ⟨vector, index⟩
  · obtain ⟨v, hv⟩ := h
    have hok : Eval.store (.variable slot) o span s = .ok ()
        { s with
          env := (s.env.assign s.heap.store slot o).1
          heap := { s.heap with store := (s.env.assign s.heap.store slot o).2 } } := by
      simp only [Eval.store, Bind.bind, EStateM.bind, Eval.read, hv]
      rfl
    refine ⟨_, hok, Environment.Balanced.assign.toExtends, (hstore.makes.ok hok).lasts,
      ?_, fun q hq => ?_⟩
    · simp [content, Environment.variableAt?_assign, hv]
    · rcases q with slot' | ⟨vector, index⟩
      · have hne : slot' ≠ slot := fun heq => hq (congrArg _ heq)
        simp [content, Environment.variableAt?_assign, hne]
      · simp only [content, Environment.recounts_assign.value]
  · obtain ⟨es, hes, hlt⟩ := h
    have hok : Eval.store (.element vector index) o span s = .ok ()
        { s with heap := { s.heap with
            store := s.heap.store.setValue vector (.vector (es.setIfInBounds index o)) } } := by
      simp only [Eval.store, Eval.valueOf, Bind.bind, EStateM.bind, Eval.read, hes, if_pos hlt]
      rfl
    have hhas := Store.has_of_value_vector hes
    refine ⟨_, hok, .refl, (hstore.makes.ok hok).lasts, ?_, fun q hq => ?_⟩
    · simp [content, Store.value_setValue, hhas, hlt]
    · rcases q with slot | ⟨vector', index'⟩
      · rfl
      · simp only [content, Store.value_setValue]
        by_cases hv : vector' = vector
        · subst hv
          have hne : index ≠ index' := by
            rintro rfl
            exact hq rfl
          simp [hhas, hes, hne]
        · simp [hv]

end Place

/-! ### Finding places -/

namespace Eval

variable {α β : Type} {x : Eval α} {f : α → Eval β} {s t u : State} {p : Place} {o : ObjectId}
  {ev : Node → Eval ObjectId} {span : Option Span}

theorem exists_of_bind_eq_ok {b : β} (h : (x >>= f) s = .ok b u) :
    ∃ a t, x s = .ok a t ∧ f a t = .ok b u := by
  simp only [Bind.bind, EStateM.bind] at h
  cases hx : x s with
  | error stop t =>
    rw [hx] at h
    cases h
  | ok a t =>
    rw [hx] at h
    exact ⟨a, t, rfl, h⟩

theorem stands_variablePlace {ident : Ident} (h : variablePlace span ident s = .ok p t) :
    p.Stands t := by
  obtain ⟨found, t', hread, h⟩ := exists_of_bind_eq_ok h
  cases hread
  cases hlookup : s.env.lookup ident.name with
  | none =>
    simp only [hlookup] at h
    cases h
  | some slot =>
    simp only [hlookup] at h
    cases h
    obtain ⟨v, hv, -⟩ := Environment.variableAt?_of_lookup hlookup
    exact ⟨v, hv⟩

/-- The check of an index leaves the state as it was. -/
theorem stands_subscriptIndex {vector index : ObjectId} {target : Option Span} {i : Nat}
    (h : subscriptIndex vector index target span s = .ok i t) :
    (Place.element vector i).Stands t := by
  obtain ⟨v, t', hread, h⟩ := exists_of_bind_eq_ok h
  cases hread
  cases hv : s.heap.store.value vector with
  | atom | tuple =>
    simp only [hv] at h
    cases h
  | vector es =>
    simp only [hv] at h
    obtain ⟨w, t', hread, h⟩ := exists_of_bind_eq_ok h
    cases hread
    cases hi : (s.heap.store.value index).int? with
    | none =>
      simp only [hi] at h
      cases h
    | some j =>
      simp only [hi] at h
      split at h
      · cases h
        exact ⟨es, hv, by omega⟩
      · cases h

theorem stands_elementPlace {vector : ObjectId} {target index : Node}
    (h : elementPlace ev vector target index s = .ok p t) :
    ∃ i, p = .element vector i ∧ p.Stands t := by
  obtain ⟨o, t', -, h⟩ := exists_of_bind_eq_ok h
  obtain ⟨i, t'', hindex, h⟩ := exists_of_bind_eq_ok h
  cases h
  exact ⟨i, rfl, stands_subscriptIndex hindex⟩

/-- A place that was found stands. -/
theorem stands_place {n : Node} (h : place ev n s = .ok p t) : p.Stands t := by
  unfold place at h
  split at h
  · exact stands_variablePlace h
  · obtain ⟨vector, t', -, h⟩ := exists_of_bind_eq_ok h
    obtain ⟨-, -, hp⟩ := stands_elementPlace h
    exact hp
  · cases h

/-! ### Uses of places -/

theorem follows_node {W : Watch} (fuel : Nat) : Follows W (node fuel) (node fuel) := by
  have hwatched : Follows W (watched (fun _ => true) .exhausted fuel) (node fuel) :=
    Tracks.watched (fun _ _ => rfl) fuel
  exact fun n s hs => ⟨rfl, (hwatched n s hs).2⟩

theorem Tracks.keeps {W : Watch} {d : Nat} {a : α} {y : Eval α} (h : Tracks W d x y s)
    (hs : W.holds s.env) (hy : y s = .ok a t) : s.env.Keeps d t.env := by
  have hend := (h hs).2
  rwa [hy] at hend

/-- The place that an assignment was given is still the same one when its value has been found. -/
theorem store_of_place {fuel : Nat} {target value : Node} {c : ObjectId} {s₁ s₂ s₃ : State}
    (hs : s.env.Rooted) (hp : place (node fuel) target s = .ok p s₁)
    (ho : node fuel value s₁ = .ok o s₂) (hc : copy o s₂ = .ok c s₃) :
    ∃ s₄, store p c span s₃ = .ok () s₄ ∧ assign (node fuel) span target value s = .ok o s₄ ∧
      p.Same s₁ s₄ ∧ p.content s₄ = some c ∧ ∀ q, q ≠ p → q.content s₄ = q.content s₃ := by
  have hfollows : Follows .rootedness (node fuel) (node fuel) := follows_node fuel
  have hs₁ : s.env.Keeps 0 s₁.env := (Tracks.place hfollows target).keeps hs hp
  have hs₂ : s₁.env.Keeps 0 s₂.env :=
    (hfollows value s₁).keeps (hs₁.balanced.toExtends.rooted hs) ho
  have hcopy : Routine .still (copy o) := .copy
  have henv : s₃.env = s₂.env := by
    have := hcopy.still s₂
    rwa [hc] at this
  have hlasts := ((Makes.node fuel value).ok ho).lasts.trans (hcopy.makes.ok hc).lasts
  have hextends : s₁.env.Extends s₃.env := henv ▸ hs₂.balanced.toExtends
  have hstands := stands_place hp
  obtain ⟨s₄, hstore, henv₄, hlasts₄, hcontent, hothers⟩ :=
    (hstands.same hextends hlasts).stands.store c span
  refine ⟨s₄, hstore, ?_, hstands.same (hextends.trans henv₄) (hlasts.trans hlasts₄),
    hcontent, hothers⟩
  simp only [assign]
  rw [bind_ok hp, bind_ok ho, bind_ok hc, bind_ok hstore]
  rfl

theorem load_of_elementPlace {vector : ObjectId} {target index : Node}
    (h : elementPlace ev vector target index s = .ok p t) : ∃ o, load p span t = .ok o t := by
  obtain ⟨i, rfl, hp⟩ := stands_elementPlace h
  exact hp.load

/-! ### Loops -/

/-- A step of a loop that has a way of its own to put an item at a place. -/
def iterateWith (put : Place → ObjectId → Eval Unit) (ev : Node → Eval ObjectId)
    (iterator body : Node) (fresh : Option Place) (item : ObjectId) : Eval Bool := do
  if ← isBroken then pure false
  else
    checkInterrupt body.span
    let p ←
      match fresh with
      | some p => pure p
      | none => place ev iterator
    put p item
    let _ ← statements ev body.statements
    return !(← isBroken)

def forLoopWith (put : Place → ObjectId → Eval Unit) (ev : Node → Eval ObjectId)
    (iterator iterable body : Node) : Eval ObjectId := do
  let o ← ev iterable
  let items ← itemsOf o iterable.span
  openLoop body.statements
  let fresh ← freshIterator iterator
  match items with
  | .range r => forRange (iterateWith put ev iterator body fresh) r.length r.start.toInt
  | .elements os => forElements (iterateWith put ev iterator body fresh) os
  closeLoop

theorem bind_congr_of_ok {y : Eval α} {g : α → Eval β} (hxy : x s = y s)
    (h : ∀ a t, y s = .ok a t → f a t = g a t) : (x >>= f) s = (y >>= g) s := by
  simp only [Bind.bind, EStateM.bind, hxy]
  cases hy : y s with
  | error stop t => rfl
  | ok a t => exact h a t hy

/-- The state is fit for the next item: a place that is to serve for all of them stands. -/
structure Awaits (fresh : Option Place) (s : State) : Prop where
  rooted : s.env.Rooted
  stands : ∀ p ∈ fresh, p.Stands s

namespace Awaits

variable {fresh : Option Place} {d : Nat} {a : α}

theorem after (h : Awaits fresh s) (htracks : Tracks .rootedness d x x s) (hmakes : Makes x)
    (hx : x s = .ok a t) : Awaits fresh t := by
  have hextends := (htracks.keeps h.rooted hx).balanced.toExtends
  exact ⟨hextends.rooted h.rooted,
    fun p hp => ((h.stands p hp).same hextends (hmakes.ok hx).lasts).stands⟩

theorem still (h : Awaits fresh s) (hstill : Routine .still x) (hx : x s = .ok a t) :
    Awaits fresh t :=
  h.after (d := 0) (.still hstill) hstill.makes hx

end Awaits

section

variable {put : Place → ObjectId → Eval Unit} {iterator body : Node}
  {fresh : Option Place} {fuel : Nat}
    (hput : ∀ p o s t, store p o iterator.span s = .ok () t → put p o s = .ok () t)

theorem awaits_iterate {item : ObjectId} {b : Bool} (h : Awaits fresh s)
    (ht : iterate (node fuel) iterator body fresh item s = .ok b t) : Awaits fresh t := by
  have hgoes : Goes .any (iterate (node fuel) iterator body fresh item)
      (iterate (node fuel) iterator body fresh item) :=
    (Congruent.iterate fun n => .given (Goes.node fuel n)).goes
  exact h.after (Tracks.iterate (follows_node fuel)) hgoes.toMakes ht

/-- A new variable stands as soon as it is declared. -/
theorem awaits_freshIterator (hs : s.env.Rooted) (h : freshIterator iterator s = .ok fresh t) :
    Awaits fresh t := by
  have hextends := (Tracks.freshIterator (W := .rootedness) (d := 0)).keeps hs h
    |>.balanced.toExtends
  refine ⟨hextends.rooted hs, fun p hp => ?_⟩
  unfold freshIterator at h
  split at h
  · next ident =>
    obtain ⟨slot, u, hdeclare, h⟩ := exists_of_bind_eq_ok h
    cases hdeclare
    cases h
    cases hp
    exact Environment.variableAt?_declare hs.size_pos
  · cases h
    cases hp

include hput

theorem iterateWith_eq {item : ObjectId} (h : Awaits fresh s) :
    iterateWith put (node fuel) iterator body fresh item s =
      iterate (node fuel) iterator body fresh item s := by
  have hrest : ∀ p u, p.Stands u → ∀ {f : Unit → Eval Bool},
      (put p item >>= f) u = (store p item iterator.span >>= f) u := by
    intro p u hp f
    obtain ⟨v, hstore, -⟩ := hp.store item iterator.span
    rw [bind_ok hstore, bind_ok (hput p item u v hstore)]
  simp only [iterateWith, iterate]
  refine bind_congr_of_ok rfl fun isBroken t ht => ?_
  have h' := h.still .isBroken ht
  split
  · rfl
  · refine bind_congr_of_ok rfl fun _ u hu => ?_
    have h'' := h'.still .checkInterrupt hu
    cases fresh with
    | some p => exact hrest p u (h''.stands p rfl)
    | none => exact bind_congr_of_ok rfl fun p v hv => hrest p v (stands_place hv)

theorem forRangeWith_eq {n : Nat} {i : Int} (h : Awaits fresh s) :
    forRange (iterateWith put (node fuel) iterator body fresh) n i s =
      forRange (iterate (node fuel) iterator body fresh) n i s := by
  induction n generalizing i s with
  | zero => rfl
  | succ n ih =>
    refine bind_congr_of_ok rfl fun item t ht => ?_
    have h' := h.still .allocAtom ht
    refine bind_congr_of_ok (iterateWith_eq hput h') fun goesOn u hu => ?_
    split
    · exact ih (awaits_iterate h' hu)
    · rfl

theorem forElementsWith_eq {os : List ObjectId} (h : Awaits fresh s) :
    forElements (iterateWith put (node fuel) iterator body fresh) os s =
      forElements (iterate (node fuel) iterator body fresh) os s := by
  induction os generalizing s with
  | nil => rfl
  | cons o os ih =>
    refine bind_congr_of_ok rfl fun item t ht => ?_
    have h' := h.still .copy ht
    refine bind_congr_of_ok (iterateWith_eq hput h') fun goesOn u hu => ?_
    split
    · exact ih (awaits_iterate h' hu)
    · rfl

/-- Every item finds its place, so it does not matter what would be done with one that does not. -/
theorem forLoopWith_eq {iterable : Node} (hs : s.env.Rooted) :
    forLoopWith put (node fuel) iterator iterable body s =
      forLoop (node fuel) iterator iterable body s := by
  refine bind_congr_of_ok rfl fun o t ht => ?_
  have hs₁ :=
    ((follows_node (W := .rootedness) fuel iterable s).keeps hs ht).balanced.toExtends.rooted hs
  refine bind_congr_of_ok rfl fun items u hu => ?_
  have hs₂ : u.env = t.env := by
    have hitems : Routine .still (itemsOf o iterable.span) := .itemsOf
    have := hitems.still t
    rwa [hu] at this
  refine bind_congr_of_ok rfl fun _ v hv => ?_
  have hs₃ : v.env.Rooted := by
    cases hv
    exact Environment.Extends.loopOpened.rooted (hs₂ ▸ hs₁)
  refine bind_congr_of_ok rfl fun fresh w hw => ?_
  have hawaits := awaits_freshIterator hs₃ hw
  cases items with
  | range r => exact bind_congr_of_ok (forRangeWith_eq hput hawaits) fun _ _ _ => rfl
  | elements os => exact bind_congr_of_ok (forElementsWith_eq hput hawaits) fun _ _ _ => rfl

end

/-- The value that an evaluation gives, if it gives one. -/
def value? (x : Eval α) (s : State) : Option α :=
  match x s with
  | .ok a _ => some a
  | .error _ _ => none

theorem eq_ok_of_value? {a : α} (h : x.value? s = some a) : x s = .ok a (x.after s) := by
  unfold value? at h
  unfold after
  split at h
  · next ha =>
    cases h
    simp only [ha]
  · cases h

end Eval

/-- Evaluations keep all objects as they are but for vectors, which may get other elements and get
longer. So whatever the value of an assignment does, it ends up at the place that was found for it
before, and nowhere else; an element whose index was checked can be read; and each item of a loop
finds its place, so that a loop which deals with missing places in another way is the same loop. -/
theorem places_outlast {s : State} (hs : s.env.Rooted) (fuel : Nat) :
    (∀ (t : State) (n : Node) (o : ObjectId), t.heap.store.Has o →
      ((Eval.node fuel n).after t).heap.store.Has o ∧
      ((∀ es, t.heap.store.value o ≠ .vector es) →
        ((Eval.node fuel n).after t).heap.store.value o = t.heap.store.value o) ∧
      ∀ es, t.heap.store.value o = .vector es →
        ∃ fs, ((Eval.node fuel n).after t).heap.store.value o = .vector fs ∧ es.size ≤ fs.size) ∧
    (∀ span target value p s₁ o s₂ c s₃, Eval.place (Eval.node fuel) target s = .ok p s₁ →
      Eval.node fuel value s₁ = .ok o s₂ → Eval.copy o s₂ = .ok c s₃ →
      ∃ s₄, Eval.store p c span s₃ = .ok () s₄ ∧
        Eval.assign (Eval.node fuel) span target value s = .ok o s₄ ∧
        p.Same s₁ s₄ ∧ p.content s₄ = some c ∧ ∀ q, q ≠ p → q.content s₄ = q.content s₃) ∧
    (∀ vector target index p t span,
      Eval.elementPlace (Eval.node fuel) vector target index s = .ok p t →
      ∃ o, Eval.load p span t = .ok o t) ∧
    (∀ iterator iterable body put,
      (∀ p o t u, Eval.store p o iterator.span t = .ok () u → put p o t = .ok () u) →
      Eval.forLoopWith put (Eval.node fuel) iterator iterable body s =
        Eval.forLoop (Eval.node fuel) iterator iterable body s) := by
  refine ⟨fun t n o ho => ?_, ?_, ?_, ?_⟩
  · have hlasts := ((Eval.Makes.node fuel n) t).lasts
    refine ⟨hlasts.has ho, fun hnot => ?_, fun es => hlasts.vector⟩
    rcases hlasts.value ho with hsame | ⟨es, -, hes, -⟩
    · exact hsame
    · exact absurd hes (hnot es)
  · intro span target value p s₁ o s₂ c s₃ hp ho hc
    exact Eval.store_of_place hs hp ho hc
  · intro vector target index p t span h
    exact Eval.load_of_elementPlace h
  · intro iterator iterable body put hput
    exact Eval.forLoopWith_eq hput hs

/-- A variable that is bound to a vector. -/
def vectorBound : State :=
  (Eval.node 4 (.letVar none ⟨"v", none⟩ none (some (.list none [.bool none true])))).after {}

/-- An element of the vector. -/
def firstElement : Node := .subscript none (.var none ⟨"v", none⟩) (.literal none (.int 0))

/-- A value that makes the vector longer when it is found. -/
def appended : Node := .call none (.var none ⟨"append", none⟩) [.var none ⟨"v", none⟩, .none none]

theorem places_outlast_appended :
    ∃ s₁ s₂ s₃ s₄, Eval.place (Eval.node 4) firstElement vectorBound = .ok (.element 1 0) s₁ ∧
      Eval.node 4 appended s₁ = .ok 9 s₂ ∧ Eval.copy 9 s₂ = .ok 12 s₃ ∧
      Eval.store (.element 1 0) 12 none s₃ = .ok () s₄ ∧
        (Place.element 1 0).content s₄ = some 12 := by
  have hrooted : vectorBound.env.Rooted := by
    unfold Environment.Rooted
    decide +kernel
  obtain ⟨-, hassign, -⟩ := places_outlast hrooted 4
  have hplace := Eval.eq_ok_of_value? (x := Eval.place (Eval.node 4) firstElement)
    (s := vectorBound)
    (a := .element 1 0) (by decide +kernel)
  have hvalue := Eval.eq_ok_of_value? (x := Eval.node 4 appended)
    (s := (Eval.place (Eval.node 4) firstElement).after vectorBound) (a := 9) (by decide +kernel)
  have hcopy := Eval.eq_ok_of_value? (x := Eval.copy 9) (s := (Eval.node 4 appended).after
    ((Eval.place (Eval.node 4) firstElement).after vectorBound)) (a := 12) (by decide +kernel)
  obtain ⟨s₄, hstore, -, -, hcontent, -⟩ := hassign none _ _ _ _ _ _ _ _ hplace hvalue hcopy
  exact ⟨_, _, _, s₄, hplace, hvalue, hcopy, hstore, hcontent⟩

end Scripting
