import DiceOdds.Roller

/-!
# Computations that draw, opened up

A computation in `Rolling` succeeds exactly if all its steps do, each on the roller that the step
before it left. These lemmas take such a run apart step by step.
-/

namespace DiceOdds.Rolling

variable {ε ε' β γ : Type}

/-- A sequence ends with the first error, or goes on from where the first part left the roller. -/
theorem bind_apply (x : Rolling ε β) (f : β → Rolling ε γ) (r : Roller) :
    (x >>= f) r =
      match x r with
      | (.ok b, s) => f b s
      | (.error e, s) => (.error e, s) := by
  show (bind (m := StateM Roller) x (ExceptT.bindCont f)) r = _
  unfold bind Monad.toBind StateT.instMonad StateT.bind
  simp only
  rcases x r with ⟨e | b, s⟩
  · rfl
  · rfl

/-- A sequence succeeds exactly if its first part does and then its second. -/
theorem bind_eq_ok {x : Rolling ε β} {f : β → Rolling ε γ} {r r' : Roller} {c : γ} :
    (x >>= f) r = (.ok c, r') ↔ ∃ b s, x r = (.ok b, s) ∧ f b s = (.ok c, r') := by
  rw [bind_apply]
  rcases x r with ⟨e | b, s⟩
  · constructor
    · intro h
      cases h
    · rintro ⟨b, s', h, -⟩
      cases h
  · constructor
    · exact fun h => ⟨b, s, rfl, h⟩
    · rintro ⟨b', s', h, h'⟩
      cases h
      exact h'

/-- A sequence ends with an error exactly if its first part does, or else its second. -/
theorem bind_fst_eq_error {x : Rolling ε β} {f : β → Rolling ε γ} {r : Roller} {e : ε} :
    ((x >>= f) r).1 = .error e ↔
      (x r).1 = .error e ∨ ∃ b s, x r = (.ok b, s) ∧ (f b s).1 = .error e := by
  rw [bind_apply]
  rcases x r with ⟨e' | b, s⟩
  · constructor
    · exact fun h => .inl (congrArg Except.error (Except.error.inj h))
    · rintro (h | ⟨b, s', h, -⟩)
      · exact congrArg Except.error (Except.error.inj h)
      · cases h
  · constructor
    · exact fun h => .inr ⟨b, s, rfl, h⟩
    · rintro (h | ⟨b', s', h, h'⟩)
      · cases h
      · cases h
        exact h'

/-- A given result is what it is and takes no draw. -/
theorem pure_eq_ok {b c : β} {r r' : Roller} :
    (pure b : Rolling ε β) r = (.ok c, r') ↔ b = c ∧ r = r' := by
  show ((.ok b, r) : Except ε β × Roller) = _ ↔ _
  rw [Prod.mk.injEq, Except.ok.injEq]

/-- A result that takes no draw succeeds as it does by itself. -/
theorem ofExcept_eq_ok {x : Except ε β} {r r' : Roller} {b : β} :
    ofExcept x r = (.ok b, r') ↔ x = .ok b ∧ r = r' := by
  rw [ofExcept, Prod.mk.injEq]

end DiceOdds.Rolling

/-- Describing errors in other terms changes no success. -/
theorem Except.mapError_eq_ok_iff {ε ε' β : Type} {f : ε → ε'} {x : Except ε β} {b : β} :
    x.mapError f = .ok b ↔ x = .ok b := by
  cases x with
  | error =>
    constructor
    · intro h
      cases h
    · intro h
      cases h
  | ok c =>
    show Except.ok c = _ ↔ _
    rw [Except.ok.injEq, Except.ok.injEq]

/-- The errors of a sequence are described in other terms part by part. -/
theorem Except.mapError_bind {ε ε' β γ : Type} (g : ε → ε') (x : Except ε β)
    (f : β → Except ε γ) :
    (x >>= f).mapError g = x.mapError g >>= fun b => (f b).mapError g := by
  cases x with
  | error e => rfl
  | ok b => rfl

/-- A sequence succeeds exactly if its first part does and then its second. -/
theorem Except.bind_eq_ok_iff {ε β γ : Type} {x : Except ε β} {f : β → Except ε γ} {c : γ} :
    x >>= f = .ok c ↔ ∃ b, x = .ok b ∧ f b = .ok c := by
  cases x with
  | error e =>
    constructor
    · intro h
      cases h
    · rintro ⟨b, h, -⟩
      cases h
  | ok b =>
    constructor
    · exact fun h => ⟨b, rfl, h⟩
    · rintro ⟨b', h, h'⟩
      cases h
      exact h'

/-- A run over entries succeeds exactly if no entry fails, where an entry fails or not whatever the
state is. -/
theorem Except.exists_foldlM_eq_ok_iff {ε β γ : Type} {f : β → γ → Except ε β} {P : γ → Prop}
    {entries : List γ} (h : ∀ b, ∀ a ∈ entries, (∃ b', f b a = .ok b') ↔ P a) (b : β) :
    (∃ b', entries.foldlM f b = .ok b') ↔ ∀ a ∈ entries, P a := by
  induction entries generalizing b with
  | nil => exact iff_of_true ⟨b, rfl⟩ fun a ha => (List.not_mem_nil ha).elim
  | cons a entries ih =>
    have hentries := ih fun b a' ha' => h b a' (List.mem_cons_of_mem a ha')
    have hfirst := h b a List.mem_cons_self
    rw [List.foldlM_cons, List.forall_mem_cons]
    constructor
    · rintro ⟨b', hrun⟩
      obtain ⟨b₁, hstep, hrest⟩ := Except.bind_eq_ok_iff.mp hrun
      exact ⟨hfirst.mp ⟨b₁, hstep⟩, (hentries b₁).mp ⟨b', hrest⟩⟩
    · rintro ⟨ha, hrest⟩
      obtain ⟨b₁, hstep⟩ := hfirst.mpr ha
      obtain ⟨b', hrun⟩ := (hentries b₁).mpr hrest
      exact ⟨b', Except.bind_eq_ok_iff.mpr ⟨b₁, hstep, hrun⟩⟩

/-! ## What results and errors are like -/

/-- Whether `P` holds of the result, or `Q` of the error if there is none. -/
def Except.Yields {ε β : Type} (P : β → Prop) (Q : ε → Prop) : Except ε β → Prop
  | .ok b => P b
  | .error e => Q e

namespace Except.Yields

variable {ε ε' β γ : Type} {P : β → Prop} {P' : γ → Prop} {Q : ε → Prop} {Q' : ε' → Prop}

/-- What the first part of a sequence yields is what the second can go on from. -/
theorem bind {x : Except ε β} {f : β → Except ε γ} (hx : x.Yields P Q)
    (hf : ∀ b, P b → (f b).Yields P' Q) : (x >>= f).Yields P' Q := by
  cases x with
  | error e => exact hx
  | ok b => exact hf b hx

/-- Describing errors in other terms leaves the results as they are. -/
theorem mapError {x : Except ε β} {f : ε → ε'} (hx : x.Yields P Q) (hf : ∀ e, Q e → Q' (f e)) :
    (x.mapError f).Yields P Q' := by
  cases x with
  | error e => exact hf e hx
  | ok b => exact hx

/-- What fails with the stronger property fails with the weaker. -/
theorem mono_error {Q' : ε → Prop} {x : Except ε β} (hx : x.Yields P Q) (h : ∀ e, Q e → Q' e) :
    x.Yields P Q' := by
  cases x with
  | error e => exact h e hx
  | ok b => exact hx

/-- A run over entries keeps what every step keeps. -/
theorem foldlM {f : β → γ → Except ε β} {entries : List γ}
    (hf : ∀ b, P b → ∀ a ∈ entries, (f b a).Yields P Q) {b : β} (hb : P b) :
    (entries.foldlM f b).Yields P Q := by
  induction entries generalizing b with
  | nil => exact hb
  | cons a entries ih =>
    rw [List.foldlM_cons]
    exact (hf b hb a List.mem_cons_self).bind fun b' hb' =>
      ih (fun c hc a' ha' => hf c hc a' (List.mem_cons_of_mem a ha')) hb'

end Except.Yields

namespace DiceOdds.Rolling

variable {ε ε' β γ : Type} {P : β → Prop} {P' : γ → Prop} {Q : ε → Prop} {Q' : ε' → Prop}

/-- Whether on every roller `P` holds of the result, or `Q` of the error if there is none. -/
def Yields (P : β → Prop) (Q : ε → Prop) (x : Rolling ε β) : Prop := ∀ r, (x r).1.Yields P Q

/-- What the first part of a sequence yields is what the second can go on from. -/
theorem Yields.bind {x : Rolling ε β} {f : β → Rolling ε γ} (hx : Yields P Q x)
    (hf : ∀ b, P b → Yields P' Q (f b)) : Yields P' Q (x >>= f) := by
  intro r
  have hxr := hx r
  rw [bind_apply]
  rcases h : x r with ⟨e | b, s⟩
  · rwa [h] at hxr
  · rw [h] at hxr
    exact hf b hxr s

/-- A result that takes no draw yields what it yields by itself. -/
theorem yields_ofExcept {x : Except ε β} (hx : x.Yields P Q) : Yields P Q (ofExcept x) :=
  fun _ => hx

/-- What fails with the stronger property fails with the weaker. -/
theorem Yields.mono_error {Q' : ε → Prop} {x : Rolling ε β} (hx : Yields P Q x)
    (h : ∀ e, Q e → Q' e) : Yields P Q' x := fun r => (hx r).mono_error h

/-- Describing errors in other terms leaves the results as they are. -/
theorem Yields.mapError {x : Rolling ε β} {f : ε → ε'} (hx : Yields P Q x)
    (hf : ∀ e, Q e → Q' (f e)) : Yields P Q' (Rolling.mapError f x) :=
  fun r => (hx r).mapError hf

end DiceOdds.Rolling

/-! ## Two runs side by side -/

/-- Whether two computations fail with the same error, or have results of which `R` holds. -/
def Except.Agrees {ε β γ : Type} (R : β → γ → Prop) : Except ε β → Except ε γ → Prop
  | .ok b, .ok c => R b c
  | .error e, .error e' => e = e'
  | .ok _, .error _ | .error _, .ok _ => False

namespace Except.Agrees

variable {ε ε' β β' γ γ' : Type} {R : β → γ → Prop} {R' : β' → γ' → Prop}

/-- Sequences agree if their first parts do, and their second parts on what those give. -/
theorem bind {x : Except ε β} {y : Except ε γ} {f : β → Except ε β'} {g : γ → Except ε γ'}
    (h : x.Agrees R y) (hf : ∀ b c, R b c → (f b).Agrees R' (g c)) :
    (x >>= f).Agrees R' (y >>= g) := by
  rcases x with e | b
  · rcases y with e' | c
    · exact h
    · exact h.elim
  · rcases y with e' | c
    · exact h.elim
    · exact hf b c h

/-- Describing errors in other terms leaves no disagreement. -/
theorem mapError {x : Except ε β} {y : Except ε γ} (h : x.Agrees R y) (f : ε → ε') :
    (x.mapError f).Agrees R (y.mapError f) := by
  rcases x with e | b
  · rcases y with e' | c
    · exact congrArg f h
    · exact h.elim
  · rcases y with e' | c
    · exact h.elim
    · exact h

/-- A computation agrees with itself if its result is related to itself. -/
theorem refl {R : β → β → Prop} {x : Except ε β} (h : ∀ b, x = .ok b → R b b) : x.Agrees R x := by
  rcases x with e | b
  · rfl
  · exact h b rfl

/-- Computations with the same error or the same result are the same. -/
theorem eq {x y : Except ε β} (h : x.Agrees (· = ·) y) : x = y := by
  rcases x with e | b
  · rcases y with e' | c
    · exact congrArg Except.error h
    · exact h.elim
  · rcases y with e' | c
    · exact h.elim
    · exact congrArg Except.ok h

end Except.Agrees

namespace DiceOdds.Rolling

variable {ε ε' β β' γ γ' : Type} {R : β → γ → Prop} {R' : β' → γ' → Prop}

/-- Whether two computations agree on every roller and leave it at the same draw. -/
def Agrees (R : β → γ → Prop) (x : Rolling ε β) (y : Rolling ε γ) : Prop :=
  ∀ r, (x r).1.Agrees R (y r).1 ∧ (x r).2 = (y r).2

/-- Results that take no draw agree as they do by themselves. -/
theorem agrees_ofExcept {x : Except ε β} {y : Except ε γ} (h : x.Agrees R y) :
    Agrees R (ofExcept x) (ofExcept y) := fun _ => ⟨h, rfl⟩

/-- A computation agrees with itself if every result of it is related to itself. -/
theorem Agrees.refl {R : β → β → Prop} {x : Rolling ε β}
    (h : ∀ r r' b, x r = (.ok b, r') → R b b) : Agrees R x x :=
  fun r => ⟨.refl fun b hb => h r (x r).2 b (Prod.ext hb rfl), rfl⟩

end DiceOdds.Rolling
