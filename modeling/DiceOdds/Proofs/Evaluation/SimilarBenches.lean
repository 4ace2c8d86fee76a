import DiceOdds.Proofs.Evaluation.Proper
import DiceOdds.Proofs.Law.Similar
import DiceOdds.Workbench

/-!
# Work on similar distributions

Two benches with similar distributions under the same names, the same limits and the same draws to
come cannot be told apart by what is done on them. One operation on both fails with the same error
or gives similar distributions, takes as many draws of both, and leaves similar benches behind
(`Task.agrees_run`); so it is, step by step, for any sequence of operations
(`Workbench.agrees_runAll`).
-/

namespace DiceOdds

open Arithmetic

/-! ## Operators -/

namespace Limits

variable [Memory] (limits : Limits) {d d' e e' : Distribution ℚ}

/-- Products within limits are the same for similar operands. -/
theorem similar_times (hd : d.Similar d') (he : e.Similar e') :
    (limits.times d e).Agrees Distribution.Similar (limits.times d' e') := by
  have hbound : d.productBound e = d'.productBound e' := by
    rw [Distribution.productBound, Distribution.productBound, hd.maxValue_eq, he.maxValue_eq]
  have htimes := (hd.times he).mapError limits.tableError
  unfold times
  rw [hd.isUncertain_eq, he.isUncertain_eq, hbound]
  split
  · exact (Except.Agrees.refl (R := (· = ·)) fun _ _ => rfl).bind fun _ _ _ => htimes
  · exact htimes

/-- Similar distributions stand for the same dice. -/
theorem similar_dice (hd : d.Similar d') (he : e.Similar e') :
    Rolling.Agrees Distribution.Similar (limits.dice d e) (limits.dice d' e') := by
  have heq : limits.dice d e = limits.dice d' e' := by
    unfold dice
    rw [hd.diceCount_eq, he.diceCount_eq]
  rw [heq]
  refine .refl fun r r' x hx => .refl ?_
  obtain ⟨count, s, -, hx⟩ := Rolling.bind_eq_ok.mp hx
  obtain ⟨faces, s', -, hx⟩ := Rolling.bind_eq_ok.mp hx
  have hproper := limits.yields_diceTable_proper count faces
  rw [(Rolling.ofExcept_eq_ok.mp hx).1] at hproper
  exact hproper.weights_nonneg

/-- An operator gives similar results of similar operands. -/
theorem similar_operate (op : Operator) (hd : d.Similar d') (he : e.Similar e') :
    Rolling.Agrees Distribution.Similar (limits.operate op d e) (limits.operate op d' e') := by
  cases op with
  | plus => exact Rolling.agrees_ofExcept ((hd.add he).mapError _)
  | times => exact Rolling.agrees_ofExcept (limits.similar_times hd he)
  | dice => exact limits.similar_dice hd he

end Limits

/-! ## Benches -/

namespace Workbench

/-- Whether two benches have similar distributions under the same names, the same limits, and the
same draws for operations of expressions. -/
structure Similar (b b' : Workbench ℚ) : Prop where
  /-- The names are the same, and what is under them is similar. -/
  shelf : List.Forall₂ (fun a a' => a.1 = a'.1 ∧ a.2.Similar a'.2) b.shelf b'.shelf
  /-- The limits are the same. -/
  limits : b.limits = b'.limits
  /-- The draws are the same, and as many of them are taken. -/
  roller : b.roller = b'.roller

/-- What is looked up among similar entries is similar, if there is anything. -/
theorem lookup_similar {l l' : List (String × Distribution ℚ)}
    (h : List.Forall₂ (fun a a' => a.1 = a'.1 ∧ a.2.Similar a'.2) l l') (name : String) :
    Option.Rel Distribution.Similar (l.lookup name) (l'.lookup name) := by
  induction h with
  | nil => exact .none
  | @cons a a' l l' ha _ ih =>
    obtain ⟨key, d⟩ := a
    obtain ⟨key', d'⟩ := a'
    obtain ⟨rfl, hd⟩ : key = key' ∧ d.Similar d' := ha
    rw [List.lookup_cons, List.lookup_cons]
    split
    · exact .some hd
    · exact ih

namespace Similar

variable {b b' : Workbench ℚ} (h : b.Similar b')

include h

/-- What is found under a name is similar, if anything is. -/
theorem find? (name : String) :
    Option.Rel Distribution.Similar (b.find? name) (b'.find? name) := lookup_similar h.shelf name

/-- Taking a name off leaves similar benches. -/
theorem erase (name : String) : (b.erase name).Similar (b'.erase name) := by
  refine ⟨List.rel_filter (fun a a' ha => ?_) h.shelf, h.limits, h.roller⟩
  show (a.1 != name) = true ↔ (a'.1 != name) = true
  rw [ha.1]

/-- Putting similar distributions under a name leaves similar benches. -/
theorem insert (name : String) {d d' : Distribution ℚ} (hd : d.Similar d') :
    (b.insert name d).Similar (b'.insert name d') :=
  ⟨.cons ⟨rfl, hd⟩ (h.erase name).shelf, h.limits, h.roller⟩

end Similar

end Workbench

/-! ## Work -/

namespace Work

variable {β β' γ γ' : Type} {R : β → γ → Prop} {R' : β' → γ' → Prop}

/-- A sequence of work ends with the first error, or goes on from where the first part left the
bench. -/
theorem bind_apply {α : Type} (x : Work α β) (f : β → Work α γ) (b : Workbench α) :
    (x >>= f) b =
      match x b with
      | (.ok c, b') => f c b'
      | (.error e, b') => (.error e, b') := by
  show (bind (m := StateM (Workbench α)) x (ExceptT.bindCont f)) b = _
  unfold bind Monad.toBind StateT.instMonad StateT.bind
  simp only
  rcases x b with ⟨e | c, b'⟩
  · rfl
  · rfl

/-- Whether work on similar benches gives the same error or results of which `R` holds, and leaves
similar benches. -/
def Agrees (R : β → γ → Prop) (x : Work ℚ β) (y : Work ℚ γ) : Prop :=
  ∀ b b', b.Similar b' → (x b).1.Agrees R (y b').1 ∧ (x b).2.Similar (y b').2

/-- Results of which `R` holds agree. -/
theorem agrees_pure {c : β} {c' : γ} (h : R c c') : Agrees R (pure c) (pure c') :=
  fun _ _ hb => ⟨h, hb⟩

/-- Work agrees if its first parts do, and its second parts on what those give. -/
theorem Agrees.bind {x : Work ℚ β} {y : Work ℚ γ} {f : β → Work ℚ β'} {g : γ → Work ℚ γ'}
    (h : Agrees R x y) (hf : ∀ c c', R c c' → Agrees R' (f c) (g c')) :
    Agrees R' (x >>= f) (y >>= g) := by
  intro b b' hb
  obtain ⟨hxy, hleft⟩ := h b b' hb
  rw [bind_apply, bind_apply]
  rcases hx : x b with ⟨e | c, s⟩
  · rcases hy : y b' with ⟨e' | c', s'⟩
    · rw [hx, hy] at hxy hleft
      exact ⟨hxy, hleft⟩
    · rw [hx, hy] at hxy
      exact hxy.elim
  · rcases hy : y b' with ⟨e' | c', s'⟩
    · rw [hx, hy] at hxy
      exact hxy.elim
    · rw [hx, hy] at hxy hleft
      exact hf c c' hxy s s' hleft

/-- Work that draws agrees if its draws do. -/
theorem agrees_rolling {ε : Type} {x : Rolling ε β} {y : Rolling ε γ} (h : Rolling.Agrees R x y)
    (onError : ε → WorkError ℚ) :
    Agrees R (Workbench.rolling onError x) (Workbench.rolling onError y) := by
  intro b b' hb
  obtain ⟨hxy, hroller⟩ := h b.roller
  rw [hb.roller] at hxy hroller
  unfold Workbench.rolling
  rw [hb.roller]
  exact ⟨hxy.mapError onError, hb.shelf, hb.limits, hroller⟩

/-- Results that take no draw agree as they do by themselves. -/
theorem agrees_ofExcept {x : Except (DistributionError ℚ) β} {y : Except (DistributionError ℚ) γ}
    (h : x.Agrees R y) : Agrees R (Workbench.ofExcept x) (Workbench.ofExcept y) :=
  fun _ _ hb => ⟨h.mapError _, hb⟩

/-- Similar distributions are under a name, or none. -/
theorem agrees_look (name : String) :
    Agrees Distribution.Similar (Workbench.look name) (Workbench.look name) := by
  intro b b' hb
  have hfound := hb.find? name
  unfold Workbench.look
  rcases hd : b.find? name with - | d
  · rcases hd' : b'.find? name with - | d'
    · exact ⟨rfl, hb⟩
    · rw [hd, hd'] at hfound
      cases hfound
  · rcases hd' : b'.find? name with - | d'
    · rw [hd, hd'] at hfound
      cases hfound
    · rw [hd, hd'] at hfound
      cases hfound with
      | some h => exact ⟨h, hb⟩

/-- Taking a name off leaves similar benches. -/
theorem agrees_modify {f : Workbench ℚ → Workbench ℚ} (hf : ∀ b b', b.Similar b' →
    (f b).Similar (f b')) : Agrees (fun _ _ => True) (modify f : Work ℚ Unit) (modify f) :=
  fun b b' hb => ⟨trivial, hf b b' hb⟩

/-- Similar distributions are taken from under a name, or none. -/
theorem agrees_take (name : String) :
    Agrees Distribution.Similar (Workbench.take name) (Workbench.take name) :=
  (agrees_look name).bind fun _ _ hd =>
    (agrees_modify fun _ _ hb => hb.erase name).bind fun _ _ _ => agrees_pure hd

/-- Similar distributions are taken from under two names, or none. -/
theorem agrees_takeTwo (a b : String) :
    Agrees (fun x y => x.1.Similar y.1 ∧ x.2.Similar y.2) (Workbench.takeTwo (α := ℚ) a b)
      (Workbench.takeTwo a b) := by
  have htwo : Agrees (fun x y => x.1.Similar y.1 ∧ x.2.Similar y.2) (do
      let d ← Workbench.look a
      let e ← Workbench.look b
      modify fun bench => (bench.erase a).erase b
      return (d, e) : Work ℚ (Distribution ℚ × Distribution ℚ)) (do
      let d ← Workbench.look a
      let e ← Workbench.look b
      modify fun bench => (bench.erase a).erase b
      return (d, e)) :=
    (agrees_look a).bind fun _ _ hd => (agrees_look b).bind fun _ _ he =>
      (agrees_modify fun _ _ hb => (hb.erase a).erase b).bind fun _ _ _ => agrees_pure ⟨hd, he⟩
  unfold Workbench.takeTwo
  split
  · exact fun _ _ hb => ⟨rfl, hb⟩
  · exact htwo

/-- Similar distributions are put under a name. -/
theorem agrees_put (name : String) {d d' : Distribution ℚ} (hd : d.Similar d') :
    Agrees Distribution.Similar (Workbench.perform.put name d) (Workbench.perform.put name d') :=
  fun _ _ hb => ⟨hd, hb.insert name hd⟩

/-- Similar distributions are altered to similar ones. -/
theorem agrees_alter (op : Change) {d d' : Distribution ℚ} (hd : d.Similar d') :
    Agrees Distribution.Similar (Workbench.alter d op) (Workbench.alter d' op) := by
  cases op with
  | mean => exact agrees_ofExcept hd.mean
  | avg => exact agrees_rolling hd.avg _
  | roll => exact agrees_rolling hd.roll _

/-- Similar distributions are united to similar ones. -/
theorem agrees_unite [Memory] (op : Combination) {d d' e e' : Distribution ℚ} (hd : d.Similar d')
    (he : e.Similar e') :
    Agrees Distribution.Similar (Workbench.unite d e op) (Workbench.unite d' e' op) := by
  cases op with
  | add => exact agrees_ofExcept (hd.add he)
  | times => exact agrees_ofExcept (hd.times he)
  | prob => exact agrees_rolling (hd.prob he) _
  | operate op =>
    have hunite (d e : Distribution ℚ) (b : Workbench ℚ) :
        Workbench.unite d e (.operate op) b =
          Workbench.rolling .roll (b.limits.operate op d e) b := rfl
    intro b b' hb
    rw [hunite, hunite, ← hb.limits]
    exact agrees_rolling (b.limits.similar_operate op hd he) _ b b' hb

end Work

/-! ## Sequences of operations -/

/-- An operation on the distributions of a bench. -/
inductive Task where
  /-- Put another copy of what is under `a` under `out`. -/
  | copy (out a : String)
  /-- Use up what is under `a` and put the result under `out`. -/
  | change (out a : String) (op : Change)
  /-- Use up what is under `a` and under `b` and put the result under `out`. -/
  | combine (out a b : String) (op : Combination)
  /-- Draw a number from what is under `a`, which stays there. -/
  | resolve (a : String)

/-- What an operation gives. -/
inductive Answer (α : Type) where
  /-- A distribution, which is on the bench now. -/
  | distribution (d : Distribution α)
  /-- A number. -/
  | value (v : α)

/-- Whether two answers are similar distributions, or the same number. -/
def Answer.Similar : Answer ℚ → Answer ℚ → Prop
  | distribution d, distribution d' => d.Similar d'
  | value v, value v' => v = v'
  | distribution _, value _ | value _, distribution _ => False

variable {α : Type} [Arithmetic α]

/-- Carries out an operation. -/
def Task.run [Memory] : Task → Work α (Answer α)
  | copy out a => do return .distribution (← Workbench.perform (.make out (.copy a)))
  | change out a op => do return .distribution (← Workbench.perform (.change out a op))
  | combine out a b op => do return .distribution (← Workbench.perform (.combine out a b op))
  | resolve a => do
    let d ← Workbench.look a
    return .value (← Workbench.rolling .roll d.resolve)

/-- Carries out operations one after the other, also after some that fail, and records for each
what it gives and how it leaves the bench. -/
def Workbench.runAll [Memory] : List Task → Workbench α →
    List (Except (WorkError α) (Answer α) × Workbench α)
  | [], _ => []
  | task :: tasks, bench => task.run bench :: runAll tasks (task.run bench).2

/-- On similar benches an operation gives similar answers, or the same error, and leaves similar
benches. -/
theorem Task.agrees_run [Memory] (task : Task) : Work.Agrees Answer.Similar task.run task.run := by
  have hanswer {x y : Work ℚ (Distribution ℚ)} (h : Work.Agrees Distribution.Similar x y) :
      Work.Agrees Answer.Similar (do return .distribution (← x)) (do return .distribution (← y)) :=
    h.bind fun d d' hd => Work.agrees_pure (R := Answer.Similar) hd
  cases task with
  | copy out a =>
    exact hanswer ((Work.agrees_look a).bind fun d d' hd => Work.agrees_put out hd)
  | change out a op =>
    exact hanswer ((Work.agrees_take a).bind fun d d' hd =>
      (Work.agrees_alter op hd).bind fun x x' hx => Work.agrees_put out hx)
  | combine out a b op =>
    exact hanswer ((Work.agrees_takeTwo a b).bind fun p p' hp =>
      (Work.agrees_unite op hp.1 hp.2).bind fun x x' hx => Work.agrees_put out hx)
  | resolve a =>
    refine (Work.agrees_look a).bind fun d d' hd => ?_
    have hvalue : Rolling.Agrees (· = ·) d.resolve d'.resolve := by
      rw [hd.resolve_eq]
      exact .refl fun _ _ _ _ => rfl
    exact (Work.agrees_rolling hvalue _).bind fun v v' hv =>
      Work.agrees_pure (R := Answer.Similar) hv

/-- On similar benches every sequence of operations goes the same way: step by step both give
similar distributions, the same number or the same error, as many draws are taken of both, and the
benches that are left are similar. -/
theorem Workbench.agrees_runAll [Memory] (tasks : List Task) (b b' : Workbench ℚ)
    (h : b.Similar b') :
    List.Forall₂ (fun step step' => step.1.Agrees Answer.Similar step'.1 ∧
        step.2.roller.taken = step'.2.roller.taken ∧ step.2.Similar step'.2)
      (runAll tasks b) (runAll tasks b') := by
  induction tasks generalizing b b' with
  | nil => exact .nil
  | cons task tasks ih =>
    obtain ⟨hanswer, hbench⟩ := task.agrees_run b b' h
    exact .cons ⟨hanswer, congrArg Roller.taken hbench.roller, hbench⟩ (ih _ _ hbench)

/-- With all weights three times as large a sum of two tables and a roll go as before. -/
theorem Workbench.agrees_runAll_tripled :
    let bench (k : ℚ) : Workbench ℚ :=
      { shelf := [("a", ⟨0, #[k, 2 * k]⟩), ("b", ⟨1, #[k, k, k]⟩)], limits := {},
        roller := .stepping 7 1000000007, sampler := .stepping 0 0 }
    let tasks : List Task := [.copy "c" "a", .combine "sum" "a" "b" (.operate .plus),
      .resolve "sum", .change "c" "c" .roll]
    (bench 1).Similar (bench 3) ∧
      List.Forall₂ (fun step step' => step.1.Agrees Answer.Similar step'.1 ∧
          step.2.roller.taken = step'.2.roller.taken ∧ step.2.Similar step'.2)
        (runAll tasks (bench 1)) (runAll tasks (bench 3)) := by
  intro bench tasks
  have hleft : Distribution.Similar ⟨0, #[1, 2 * 1]⟩ ⟨0, #[3, 2 * 3]⟩ :=
    ⟨rfl, by simp [NonnegWeights], 3, by norm_num, by norm_num⟩
  have hright : Distribution.Similar ⟨1, #[1, 1, 1]⟩ ⟨1, #[3, 3, 3]⟩ :=
    ⟨rfl, by simp [NonnegWeights], 3, by norm_num, by norm_num⟩
  have hbench : (bench 1).Similar (bench 3) :=
    ⟨.cons ⟨rfl, hleft⟩ (.cons ⟨rfl, hright⟩ .nil), rfl, rfl⟩
  exact ⟨hbench, agrees_runAll tasks _ _ hbench⟩

end DiceOdds
