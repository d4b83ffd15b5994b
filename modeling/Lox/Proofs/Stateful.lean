/-!
# Computations with state and failure

Parsers and executions are both computations that change a state and may fail, and the state is
there to be looked at after a failure too.  What is said of them here does not depend on what they
compute: how a sequence of two computations ends, what it means that one computation answers as
another unless it gives up, that a computation maintains an invariant, that two of them go side by
side, and that a loop ends.
-/

namespace Lox.Stateful

variable {ε σ α β : Type}

/-! ## Sequences -/

theorem get_eq (s : σ) : (get : EStateM ε σ σ) s = .ok s s := rfl

theorem bind_of_ok {p : EStateM ε σ α} {s t : σ} {a : α} (h : p s = .ok a t)
    (next : α → EStateM ε σ β) : (p >>= next) s = next a t := by
  change EStateM.bind p next s = _
  simp only [EStateM.bind, h]

theorem bind_of_error {p : EStateM ε σ α} {s t : σ} {e : ε} (h : p s = .error e t)
    (next : α → EStateM ε σ β) : (p >>= next) s = .error e t := by
  change EStateM.bind p next s = _
  simp only [EStateM.bind, h]

theorem map_of_ok {p : EStateM ε σ α} {s t : σ} {a : α} (h : p s = .ok a t) (f : α → β) :
    (f <$> p) s = .ok (f a) t := by
  change EStateM.map f p s = _
  simp only [EStateM.map, h]

theorem map_of_error {p : EStateM ε σ α} {s t : σ} {e : ε} (h : p s = .error e t) (f : α → β) :
    (f <$> p) s = .error e t := by
  change EStateM.map f p s = _
  simp only [EStateM.map, h]

/-- A sequence succeeds only if both of its parts do. -/
theorem bind_eq_ok {p : EStateM ε σ α} {next : α → EStateM ε σ β} {s u : σ} {b : β}
    (h : (p >>= next) s = .ok b u) : ∃ a t, p s = .ok a t ∧ next a t = .ok b u := by
  cases hp : p s with
  | ok a t =>
    rw [bind_of_ok hp] at h
    exact ⟨a, t, rfl, h⟩
  | error e t =>
    rw [bind_of_error hp] at h
    cases h

theorem map_eq_ok {p : EStateM ε σ α} {f : α → β} {s u : σ} {b : β}
    (h : (f <$> p) s = .ok b u) : ∃ a, p s = .ok a u ∧ f a = b := by
  cases hp : p s with
  | ok a t =>
    rw [map_of_ok hp] at h
    cases h
    exact ⟨a, rfl, rfl⟩
  | error e t =>
    rw [map_of_error hp] at h
    cases h

/-- A sequence that depends on an answer succeeds in one of two ways. -/
theorem ite_eq_ok {p : EStateM ε σ Bool} {yes no : EStateM ε σ α} {s u : σ} {a : α}
    (h : (p >>= fun answer ↦ if answer = true then yes else no) s = .ok a u) :
    (∃ t, p s = .ok true t ∧ yes t = .ok a u) ∨ ∃ t, p s = .ok false t ∧ no t = .ok a u := by
  obtain ⟨answer, t, hp, h⟩ := bind_eq_ok h
  cases answer with
  | true => exact .inl ⟨t, hp, h⟩
  | false => exact .inr ⟨t, hp, h⟩

theorem ite_of_true {p : EStateM ε σ Bool} {s t : σ} (h : p s = .ok true t)
    (yes no : EStateM ε σ α) :
    (p >>= fun answer ↦ if answer = true then yes else no) s = yes t :=
  bind_of_ok h _

theorem ite_of_false {p : EStateM ε σ Bool} {s t : σ} (h : p s = .ok false t)
    (yes no : EStateM ε σ α) :
    (p >>= fun answer ↦ if answer = true then yes else no) s = no t :=
  bind_of_ok h _

/-- A computation that changes nothing gives back the value and the state it was given. -/
theorem pure_eq_ok {a b : α} {s u : σ} (h : (pure a : EStateM ε σ α) s = .ok b u) :
    a = b ∧ s = u := by
  cases h
  exact ⟨rfl, rfl⟩

/-! ## Giving up -/

/-- `q` answers as `p` does, unless `p` gives up with one of the failures in `lost`. -/
def Approximates (lost : ε → Prop) (p q : EStateM ε σ α) : Prop :=
  ∀ s, (∃ e t, p s = .error e t ∧ lost e) ∨ q s = p s

namespace Approximates

variable {lost : ε → Prop}

theorem refl (p : EStateM ε σ α) : Approximates lost p p :=
  fun _ ↦ .inr rfl

/-- Where nothing but failures in `lost` come of `p`, there is nothing left to show. -/
theorem of_lost {p q : EStateM ε σ α} (h : ∀ s, ∃ e t, p s = .error e t ∧ lost e) :
    Approximates lost p q :=
  fun s ↦ .inl (h s)

/-- Computations that approximate each other step by step do so as a whole. -/
theorem bind {p q : EStateM ε σ α} {next next' : α → EStateM ε σ β} (h : Approximates lost p q)
    (hnext : ∀ a, Approximates lost (next a) (next' a)) :
    Approximates lost (p >>= next) (q >>= next') := by
  intro s
  rcases h s with ⟨e, t, hp, he⟩ | hq
  · exact .inl ⟨e, t, bind_of_error hp next, he⟩
  · cases hp : p s with
    | ok a t =>
      rw [bind_of_ok hp, bind_of_ok (hq.trans hp)]
      exact hnext a t
    | error e t =>
      rw [bind_of_error hp, bind_of_error (hq.trans hp)]
      exact .inr rfl

theorem map {p q : EStateM ε σ α} (f : α → β) (h : Approximates lost p q) :
    Approximates lost (f <$> p) (f <$> q) := by
  intro s
  rcases h s with ⟨e, t, hp, he⟩ | hq
  · exact .inl ⟨e, t, map_of_error hp f, he⟩
  · cases hp : p s with
    | ok a t => exact .inr ((map_of_ok (hq.trans hp) f).trans (map_of_ok hp f).symm)
    | error e t => exact .inr ((map_of_error (hq.trans hp) f).trans (map_of_error hp f).symm)

theorem ite {c : Prop} [Decidable c] {p q p' q' : EStateM ε σ α} (h : Approximates lost p q)
    (h' : Approximates lost p' q') :
    Approximates lost (if c then p else p') (if c then q else q') := by
  split
  · exact h
  · exact h'

end Approximates

/-! ## Invariants -/

/-- The end of a computation: a state with the invariant, and a value in `good` or a failure in
`bad`. -/
abbrev Ends (invariant : σ → Prop) (good : α → Prop) (bad : ε → Prop) :
    EStateM.Result ε σ α → Prop
  | .ok a t => invariant t ∧ good a
  | .error e t => invariant t ∧ bad e

/-- From a state with the invariant, `p` ends in a state with the invariant, with a value in `good`
or a failure in `bad`. -/
def Maintains (invariant : σ → Prop) (good : α → Prop) (bad : ε → Prop) (p : EStateM ε σ α) :
    Prop :=
  ∀ s, invariant s → Ends invariant good bad (p s)

namespace Maintains

variable {invariant : σ → Prop} {good : α → Prop} {bad : ε → Prop}

theorem ok {p : EStateM ε σ α} (h : Maintains invariant good bad p) {s t : σ} {a : α}
    (hs : invariant s) (hp : p s = .ok a t) : invariant t ∧ good a := by
  have := h s hs
  rwa [hp] at this

theorem error {p : EStateM ε σ α} (h : Maintains invariant good bad p) {s t : σ} {e : ε}
    (hs : invariant s) (hp : p s = .error e t) : invariant t ∧ bad e := by
  have := h s hs
  rwa [hp] at this

/-- The two ways in which a computation can end are shown one by one. -/
theorem of_ends {p : EStateM ε σ α}
    (hok : ∀ s a t, invariant s → p s = .ok a t → invariant t ∧ good a)
    (herror : ∀ s e t, invariant s → p s = .error e t → invariant t ∧ bad e) :
    Maintains invariant good bad p := by
  intro s hs
  cases hp : p s with
  | ok a t => exact hok s a t hs hp
  | error e t => exact herror s e t hs hp

theorem pure {a : α} (h : good a) :
    Maintains invariant good bad (Pure.pure a : EStateM ε σ α) :=
  fun _ hs ↦ ⟨hs, h⟩

/-- The invariant holds between two steps, so each is shown by itself; the second may rely on the
value of the first being good. -/
theorem bind {p : EStateM ε σ α} {next : α → EStateM ε σ β} {good' : β → Prop}
    (h : Maintains invariant good bad p)
    (hnext : ∀ a, good a → Maintains invariant good' bad (next a)) :
    Maintains invariant good' bad (p >>= next) := by
  intro s hs
  cases hp : p s with
  | ok a t =>
    rw [bind_of_ok hp]
    exact hnext a (h.ok hs hp).2 t (h.ok hs hp).1
  | error e t =>
    rw [bind_of_error hp]
    exact h.error hs hp

theorem map {p : EStateM ε σ α} {f : α → β} {good' : β → Prop}
    (h : Maintains invariant good bad p) (hf : ∀ a, good a → good' (f a)) :
    Maintains invariant good' bad (f <$> p) := by
  intro s hs
  cases hp : p s with
  | ok a t =>
    rw [map_of_ok hp]
    exact ⟨(h.ok hs hp).1, hf a (h.ok hs hp).2⟩
  | error e t =>
    rw [map_of_error hp]
    exact h.error hs hp

theorem ite {c : Prop} [Decidable c] {p q : EStateM ε σ α}
    (hp : c → Maintains invariant good bad p) (hq : ¬c → Maintains invariant good bad q) :
    Maintains invariant good bad (if c then p else q) := by
  split
  · exact hp ‹_›
  · exact hq ‹_›

/-- Less may be said of values and of failures. -/
theorem imp {p : EStateM ε σ α} {good' : α → Prop} {bad' : ε → Prop}
    (h : Maintains invariant good bad p) (hgood : ∀ a, good a → good' a)
    (hbad : ∀ e, bad e → bad' e) : Maintains invariant good' bad' p :=
  of_ends (fun _ _ _ hs hp ↦ (h.ok hs hp).imp_right (hgood _))
    (fun _ _ _ hs hp ↦ (h.error hs hp).imp_right (hbad _))

end Maintains

/-! ## Changes of state -/

def final : EStateM.Result ε σ α → σ
  | .ok _ t => t
  | .error _ t => t

/-- The state in which `p` begins and the one in which it ends are related. -/
def Moves (related : σ → σ → Prop) (p : EStateM ε σ α) : Prop :=
  ∀ s, related s (final (p s))

namespace Moves

variable {related : σ → σ → Prop}

/-- A relation that is transitive holds across a sequence if it holds across each step. -/
theorem bind (htrans : ∀ s t u, related s t → related t u → related s u) {p : EStateM ε σ α}
    {next : α → EStateM ε σ β} (h : Moves related p) (hnext : ∀ a, Moves related (next a)) :
    Moves related (p >>= next) := by
  intro s
  have hs := h s
  cases hp : p s with
  | ok a t =>
    rw [hp] at hs
    rw [bind_of_ok hp]
    exact htrans s t _ hs (hnext a t)
  | error e t =>
    rw [hp] at hs
    rw [bind_of_error hp]
    exact hs

end Moves

/-! ## Images -/

variable {α' β' : Type}

/-- The end of a computation with everything in it replaced by its image. -/
def image (state : σ → σ) (fault : ε → ε) (value : α → α') :
    EStateM.Result ε σ α → EStateM.Result ε σ α'
  | .ok a s => .ok (value a) (state s)
  | .error e s => .error (fault e) (state s)

/-- From the image of a state, `q` ends with the image of the end of `p`. -/
def Mirrors (state : σ → σ) (fault : ε → ε) (value : α → α') (p : EStateM ε σ α)
    (q : EStateM ε σ α') : Prop :=
  ∀ s, q (state s) = image state fault value (p s)

namespace Mirrors

variable {state : σ → σ} {fault : ε → ε} {value : α → α'}

theorem pure {a : α} {b : α'} (h : b = value a) :
    Mirrors state fault value (Pure.pure a) (Pure.pure b) := by
  intro s
  rw [h]
  rfl

theorem throw {e e' : ε} (h : e' = fault e) :
    Mirrors state fault value (MonadExcept.throw e) (MonadExcept.throw e') := by
  intro s
  rw [h]
  rfl

/-- A change of the state that commutes with the image is mirrored. -/
theorem modifyGet {f : σ → α × σ} {g : σ → α' × σ}
    (h : ∀ s, g (state s) = (value (f s).1, state (f s).2)) :
    Mirrors state fault value (MonadStateOf.modifyGet f) (MonadStateOf.modifyGet g) := by
  intro s
  change EStateM.Result.ok (g (state s)).1 (g (state s)).2 = _
  rw [h]
  rfl

theorem ite {c : Prop} [Decidable c] {p p' : EStateM ε σ α} {q q' : EStateM ε σ α'}
    (hp : Mirrors state fault value p q) (hp' : Mirrors state fault value p' q') :
    Mirrors state fault value (if c then p else p') (if c then q else q') := by
  split
  · exact hp
  · exact hp'

end Mirrors

/-! ## Side by side -/

/-- A computation ended with a value and a state in `good`, or with a failure and a state in
`bad`. -/
def Yields (good : α → σ → Prop) (bad : ε → σ → Prop) : EStateM.Result ε σ α → Prop
  | .ok a t => good a t
  | .error e t => bad e t

theorem Yields.imp {good good' : α → σ → Prop} {bad bad' : ε → σ → Prop}
    {result : EStateM.Result ε σ α} (h : Yields good bad result)
    (hgood : ∀ a t, good a t → good' a t) (hbad : ∀ e t, bad e t → bad' e t) :
    Yields good' bad' result :=
  match result, h with
  | .ok a t, h => hgood a t h
  | .error e t, h => hbad e t h

/-- Begun in `s` and in its image, `p` and `q` end alike, and `p` ends in `good` or in `bad`. -/
structure Abreast (state : σ → σ) (good : α → σ → Prop) (bad : ε → σ → Prop) (p q : EStateM ε σ α)
    (s : σ) : Prop where
  same : q (state s) = image state id id (p s)
  yields : Yields good bad (p s)

namespace Abreast

variable {state : σ → σ} {good : α → σ → Prop} {bad : ε → σ → Prop} {p q : EStateM ε σ α} {s : σ}

theorem of_ok {a : α} {t : σ} (hp : p s = .ok a t) (hq : q (state s) = .ok a (state t))
    (h : good a t) : Abreast state good bad p q s where
  same := by
    rw [hp, hq]
    rfl
  yields := by
    rw [hp]
    exact h

theorem of_error {e : ε} {t : σ} (hp : p s = .error e t) (hq : q (state s) = .error e (state t))
    (h : bad e t) : Abreast state good bad p q s where
  same := by
    rw [hp, hq]
    rfl
  yields := by
    rw [hp]
    exact h

/-- Where both sides take the same step, it is enough to look at what comes after it. -/
theorem of_steps {p' q' : EStateM ε σ α} {t : σ} (hp : p s = p' t)
    (hq : q (state s) = q' (state t)) (h : Abreast state good bad p' q' t) :
    Abreast state good bad p q s where
  same := by
    rw [hp, hq]
    exact h.same
  yields := by
    rw [hp]
    exact h.yields

theorem pure {a : α} (h : good a s) :
    Abreast state good bad (Pure.pure a) (Pure.pure a) s :=
  of_ok rfl rfl h

theorem throw {e : ε} (h : bad e s) :
    Abreast state good bad (MonadExcept.throw e) (MonadExcept.throw e) s :=
  of_error rfl rfl h

/-- Less may be said of the ends. -/
theorem imp {good' : α → σ → Prop} {bad' : ε → σ → Prop} (h : Abreast state good bad p q s)
    (hgood : ∀ a t, good a t → good' a t) (hbad : ∀ e t, bad e t → bad' e t) :
    Abreast state good' bad' p q s where
  same := h.same
  yields := h.yields.imp hgood hbad

/-- Of a computation that is known to fail, success says nothing. -/
theorem of_fails {good' : α → σ → Prop} (h : Abreast state good bad p q s)
    (hfails : ∀ a t, p s ≠ .ok a t) : Abreast state good' bad p q s where
  same := h.same
  yields := by
    have hyields := h.yields
    cases hp : p s with
    | ok a t => exact absurd hp (hfails a t)
    | error e t =>
      rw [hp] at hyields
      exact hyields

/-- Both sides stay abreast from step to step; only values in `good` are handed on. -/
theorem bind {next next' : α → EStateM ε σ β} {good' : β → σ → Prop}
    (h : Abreast state good bad p q s)
    (hnext : ∀ a t, good a t → Abreast state good' bad (next a) (next' a) t) :
    Abreast state good' bad (p >>= next) (q >>= next') s := by
  have hsame := h.same
  have hyields := h.yields
  cases hp : p s with
  | ok a t =>
    rw [hp] at hsame hyields
    have hrest := hnext a t hyields
    constructor
    · rw [bind_of_ok hp, bind_of_ok hsame]
      exact hrest.same
    · rw [bind_of_ok hp]
      exact hrest.yields
  | error e t =>
    rw [hp] at hsame hyields
    exact of_error (bind_of_error hp next) (bind_of_error hsame next') hyields

theorem map {f : α → β} {good' : β → σ → Prop} (h : Abreast state good bad p q s)
    (hf : ∀ a t, good a t → good' (f a) t) :
    Abreast state good' bad (f <$> p) (f <$> q) s := by
  have hsame := h.same
  have hyields := h.yields
  cases hp : p s with
  | ok a t =>
    rw [hp] at hsame hyields
    exact of_ok (map_of_ok hp f) (map_of_ok hsame f) (hf a t hyields)
  | error e t =>
    rw [hp] at hsame hyields
    exact of_error (map_of_error hp f) (map_of_error hsame f) hyields

theorem ite {c : Prop} [Decidable c] {p' q' : EStateM ε σ α}
    (hp : c → Abreast state good bad p q s) (hp' : ¬c → Abreast state good bad p' q' s) :
    Abreast state good bad (if c then p else p') (if c then q else q') s := by
  split
  · exact hp ‹_›
  · exact hp' ‹_›

end Abreast

/-! ## Loops -/

/-- What comes of repeating `round` without a bound.  A round gives on the left what the next one
begins with, or on the right the value with which the loop ends. -/
inductive Loops (round : α → EStateM ε σ (α ⊕ β)) : α → σ → EStateM.Result ε σ β → Prop where
  | done {a : α} {b : β} {s t : σ} : round a s = .ok (.inr b) t → Loops round a s (.ok b t)
  | again {a a' : α} {s t : σ} {result : EStateM.Result ε σ β} :
      round a s = .ok (.inl a') t → Loops round a' t result → Loops round a s result
  | failed {a : α} {e : ε} {s t : σ} : round a s = .error e t → Loops round a s (.error e t)

/-- `bounded` makes a given number of rounds at most.  Every round that is not the last one leaves
less than it found, by the measure `size`, and where nothing is left there is no further round. -/
structure Bounds (round : α → EStateM ε σ (α ⊕ β)) (bounded : Nat → α → EStateM ε σ β)
    (size : σ → Nat) (valid : σ → Prop) : Prop where
  step : ∀ count a s, bounded (count + 1) a s = (round a >>= Sum.elim (bounded count) pure) s
  empty : ∀ a s, size s = 0 → ∃ b, round a s = .ok (.inr b) s ∧ bounded 0 a s = .ok b s
  less : ∀ a a' s t, valid s → round a s = .ok (.inl a') t → size t < size s ∧ valid t

/-- A bound that is large enough makes no difference, and without it the loop ends as well. -/
theorem Bounds.loops {round : α → EStateM ε σ (α ⊕ β)} {bounded : Nat → α → EStateM ε σ β}
    {size : σ → Nat} {valid : σ → Prop} (h : Bounds round bounded size valid) {count : Nat} (a : α)
    {s : σ} (hvalid : valid s) (hcount : size s ≤ count) :
    Loops round a s (bounded count a s) := by
  induction count generalizing a s with
  | zero =>
    obtain ⟨b, hround, hbounded⟩ := h.empty a s (Nat.le_zero.mp hcount)
    rw [hbounded]
    exact .done hround
  | succ count ih =>
    rw [h.step]
    cases hround : round a s with
    | ok next t =>
      rw [bind_of_ok hround]
      cases next with
      | inl a' =>
        obtain ⟨hless, hvalid'⟩ := h.less a a' s t hvalid hround
        exact .again hround (ih a' hvalid' (by omega))
      | inr b => exact .done hround
    | error e t =>
      rw [bind_of_error hround]
      exact .failed hround

end Lox.Stateful
