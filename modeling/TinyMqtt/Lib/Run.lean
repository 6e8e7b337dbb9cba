import Mathlib.Data.Option.Basic
import Mathlib.Tactic

/-!
Runs of a partial step function over a sequence of inputs. A step that is
undefined has no result, and neither has a run that contains one. What the
environment promises about an input may depend on the state that meets it, so
a sequence of inputs is admissible from a state, not on its own.
-/

namespace Run

variable {σ τ ι : Type*}

/-- The state after a sequence of inputs. -/
def runs (step : σ → ι → Option σ) : σ → List ι → Option σ
  | state, [] => some state
  | state, input :: inputs => (step state input).bind (fun next => runs step next inputs)

/-- Every input is allowed in the state it meets. -/
def Admissible (allowed : σ → ι → Prop) (step : σ → ι → Option σ) : σ → List ι → Prop
  | _, [] => True
  | state, input :: inputs => allowed state input ∧
      match step state input with
      | none => True
      | some next => Admissible allowed step next inputs

instance Admissible.decidable (allowed : σ → ι → Prop)
    [∀ state input, Decidable (allowed state input)] (step : σ → ι → Option σ) :
    ∀ state inputs, Decidable (Admissible allowed step state inputs)
  | _, [] => inferInstanceAs (Decidable True)
  | state, input :: inputs =>
      have : Decidable (match step state input with
          | none => True
          | some next => Admissible allowed step next inputs) :=
        match step state input with
        | none => inferInstanceAs (Decidable True)
        | some next => Admissible.decidable allowed step next inputs
      inferInstanceAs (Decidable (allowed state input ∧ _))

theorem runs_append (step : σ → ι → Option σ) (state : σ) (first second : List ι) :
    runs step state (first ++ second) = (runs step state first).bind (runs step · second) := by
  induction first generalizing state with
  | nil => rfl
  | cons input inputs ih =>
      cases hstep : step state input with
      | none => simp [runs, hstep]
      | some next => simp [runs, hstep, ih next]

theorem runs_concat {step : σ → ι → Option σ} {start state next : σ} {inputs : List ι} {input : ι}
    (hrun : runs step start inputs = some state) (hstep : step state input = some next) :
    runs step start (inputs ++ [input]) = some next := by
  rw [runs_append, hrun, Option.bind_some, runs, hstep]
  rfl

theorem Admissible.imp {allowed allowed' : σ → ι → Prop} {step : σ → ι → Option σ}
    (himp : ∀ state input, allowed state input → allowed' state input) {start : σ}
    {inputs : List ι} (hinputs : Admissible allowed step start inputs) :
    Admissible allowed' step start inputs := by
  induction inputs generalizing start with
  | nil => trivial
  | cons first inputs ih =>
      obtain ⟨hfirst, hrest⟩ := hinputs
      refine ⟨himp start first hfirst, ?_⟩
      cases hstep : step start first with
      | none => trivial
      | some next =>
          rw [hstep] at hrest
          exact ih hrest

theorem Admissible.and {allowed allowed' : σ → ι → Prop} {step : σ → ι → Option σ} {start : σ}
    {inputs : List ι} (hinputs : Admissible allowed step start inputs)
    (hinputs' : Admissible allowed' step start inputs) :
    Admissible (fun state input => allowed state input ∧ allowed' state input) step start inputs := by
  induction inputs generalizing start with
  | nil => trivial
  | cons first inputs ih =>
      obtain ⟨hfirst, hrest⟩ := hinputs
      obtain ⟨hfirst', hrest'⟩ := hinputs'
      refine ⟨⟨hfirst, hfirst'⟩, ?_⟩
      cases hstep : step start first with
      | none => trivial
      | some next =>
          rw [hstep] at hrest hrest'
          exact ih hrest hrest'

/-- In a run that has a result every input was met by a step that has one. -/
theorem exists_step_of_mem {step : σ → ι → Option σ} {start final : σ} {inputs : List ι} {input : ι}
    (hrun : runs step start inputs = some final) (hmem : input ∈ inputs) :
    ∃ state next, step state input = some next := by
  obtain ⟨before, after, rfl⟩ := List.append_of_mem hmem
  rw [runs_append] at hrun
  obtain ⟨state, -, hrest⟩ := Option.bind_eq_some_iff.mp hrun
  obtain ⟨next, hnext, -⟩ := Option.bind_eq_some_iff.mp hrest
  exact ⟨state, next, hnext⟩

/-- One more input, allowed in the state that the others lead to. -/
theorem admissible_concat {allowed : σ → ι → Prop} {step : σ → ι → Option σ} {start : σ}
    {inputs : List ι} {input : ι} (hinputs : Admissible allowed step start inputs)
    (hlast : ∀ state, runs step start inputs = some state → allowed state input) :
    Admissible allowed step start (inputs ++ [input]) := by
  induction inputs generalizing start with
  | nil =>
      refine ⟨hlast start rfl, ?_⟩
      cases step start input <;> trivial
  | cons first inputs ih =>
      obtain ⟨hfirst, hrest⟩ := hinputs
      refine ⟨hfirst, ?_⟩
      cases hstep : step start first with
      | none => trivial
      | some next =>
          rw [hstep] at hrest
          refine ih hrest ?_
          intro state hstate
          exact hlast state (by rw [runs, hstep]; exact hstate)

/-- What is allowed by a part of the state that runs on its own. -/
theorem admissible_of_part {part : σ → τ} {step : σ → ι → Option σ} {partStep : τ → ι → Option τ}
    (hstep : ∀ state input, (step state input).map part = partStep (part state) input)
    {allowed : τ → ι → Prop} {start : σ} {inputs : List ι}
    (hinputs : Admissible allowed partStep (part start) inputs) :
    Admissible (fun state input => allowed (part state) input) step start inputs := by
  induction inputs generalizing start with
  | nil => trivial
  | cons input inputs ih =>
      obtain ⟨hallowed, hrest⟩ := hinputs
      refine ⟨hallowed, ?_⟩
      rw [← hstep] at hrest
      cases hnext : step start input with
      | none => trivial
      | some next =>
          rw [hnext] at hrest
          exact ih hrest

/-- What a run that has a result shows of its last state. -/
theorem observe_eq {α : Type*} {step : σ → ι → Option σ} {start state : σ} {inputs : List ι}
    (hrun : runs step start inputs = some state) {f : σ → α} {a : α}
    (hshown : (runs step start inputs).map f = some a) : f state = a := by
  rw [hrun] at hshown
  exact Option.some.inj hshown

/-- Simulation of a total abstract machine: when each allowed step is defined
and keeps the two states related, so does every admissible run. -/
theorem runs_simulates {allowed : σ → ι → Prop} {step : σ → ι → Option σ}
    {abstractStep : τ → ι → τ} {R : σ → τ → Prop}
    (hstep : ∀ state abstract input, R state abstract → allowed state input →
      ∃ next, step state input = some next ∧ R next (abstractStep abstract input))
    {inputs : List ι} {state : σ} {abstract : τ} (hrel : R state abstract)
    (hinputs : Admissible allowed step state inputs) :
    ∃ final, runs step state inputs = some final ∧
      R final (inputs.foldl abstractStep abstract) := by
  induction inputs generalizing state abstract with
  | nil => exact ⟨state, rfl, hrel⟩
  | cons input inputs ih =>
      obtain ⟨hallowed, hrest⟩ := hinputs
      obtain ⟨next, hnext, hrel'⟩ := hstep state abstract input hrel hallowed
      rw [hnext] at hrest
      obtain ⟨final, hfinal, hrelFinal⟩ := ih hrel' hrest
      exact ⟨final, by simp [runs, hnext, hfinal], hrelFinal⟩

/-- When moreover a step that is not allowed is undefined, the admissible runs
are exactly those that have a result and end in an observable relation, for
every observation that the invariant gives. -/
theorem runs_simulates_iff {allowed : τ → ι → Prop} {step : σ → ι → Option σ}
    {abstractStep : τ → ι → τ} {R Q : σ → τ → Prop}
    (hstep : ∀ state abstract input, R state abstract → allowed abstract input →
      ∃ next, step state input = some next ∧ R next (abstractStep abstract input))
    (hstuck : ∀ state abstract input, R state abstract → ¬ allowed abstract input →
      step state input = none)
    (hobserve : ∀ state abstract, R state abstract → Q state abstract)
    {inputs : List ι} {state : σ} {abstract : τ} (hrel : R state abstract) :
    (∃ final, runs step state inputs = some final ∧
      Q final (inputs.foldl abstractStep abstract)) ↔
      Admissible allowed (fun abstract input => some (abstractStep abstract input)) abstract
        inputs := by
  induction inputs generalizing state abstract with
  | nil =>
      constructor
      · intro _
        trivial
      · intro _
        exact ⟨state, rfl, hobserve state abstract hrel⟩
  | cons input inputs ih =>
      by_cases hallowed : allowed abstract input
      · obtain ⟨next, hnext, hrel'⟩ := hstep state abstract input hrel hallowed
        simpa [runs, Admissible, hnext, hallowed] using ih hrel'
      · simp [runs, Admissible, hstuck state abstract input hrel hallowed, hallowed]

/-- A part of the state that makes a step of its own at every step runs on its
own. -/
theorem runs_project {κ : Type*} {step : σ → ι → Option σ} {partStep : τ → κ → Option τ}
    {part : σ → τ}
    (hstep : ∀ state input next, step state input = some next →
      ∃ k, partStep (part state) k = some (part next))
    {start state : σ} {inputs : List ι} (hrun : runs step start inputs = some state) :
    ∃ ks, runs partStep (part start) ks = some (part state) := by
  induction inputs generalizing start with
  | nil =>
      obtain rfl := Option.some.inj hrun
      exact ⟨[], rfl⟩
  | cons input inputs ih =>
      obtain ⟨next, hfirst, hrest⟩ := Option.bind_eq_some_iff.mp hrun
      obtain ⟨k, hk⟩ := hstep start input next hfirst
      obtain ⟨ks, hks⟩ := ih hrest
      exact ⟨k :: ks, by rw [runs, hk]; exact hks⟩

/-- When only the defined steps matter: a relation to a total abstract machine
that every step keeps holds after every run that has a result. -/
theorem runs_relates {allowed : ι → Prop} {step : σ → ι → Option σ} {abstractStep : τ → ι → τ}
    {R : σ → τ → Prop}
    (hstep : ∀ state abstract input next, R state abstract → allowed input →
      step state input = some next → R next (abstractStep abstract input))
    {inputs : List ι} (hinputs : ∀ input ∈ inputs, allowed input) {state final : σ}
    {abstract : τ} (hrel : R state abstract) (hrun : runs step state inputs = some final) :
    R final (inputs.foldl abstractStep abstract) := by
  induction inputs generalizing state abstract with
  | nil =>
      obtain rfl := Option.some.inj hrun
      exact hrel
  | cons input inputs ih =>
      obtain ⟨next, hnext, hrest⟩ := Option.bind_eq_some_iff.mp hrun
      obtain ⟨hallowed, hothers⟩ := List.forall_mem_cons.mp hinputs
      exact ih hothers (hstep state abstract input next hrel hallowed hnext) hrest

/-- What every allowed step that has a result keeps holds after every
admissible run that has one. -/
theorem runs_preserves {allowed : σ → ι → Prop} {step : σ → ι → Option σ} {Inv : σ → Prop}
    (hstep : ∀ state input next, Inv state → allowed state input → step state input = some next →
      Inv next)
    {inputs : List ι} {state final : σ} (hinv : Inv state)
    (hinputs : Admissible allowed step state inputs) (hrun : runs step state inputs = some final) :
    Inv final := by
  induction inputs generalizing state with
  | nil =>
      obtain rfl := Option.some.inj hrun
      exact hinv
  | cons input inputs ih =>
      obtain ⟨hallowed, hothers⟩ := hinputs
      obtain ⟨next, hnext, hrest⟩ := Option.bind_eq_some_iff.mp hrun
      rw [hnext] at hothers
      exact ih (hstep state input next hinv hallowed hnext) hothers hrest

/-- When a step keeps a property just when it is allowed, and never restores
it, the runs that keep it are the admissible ones. -/
theorem runs_keeps_iff {allowed : σ → ι → Prop} {step : σ → ι → Option σ} {Inv : σ → Prop}
    (hstep : ∀ state input next, step state input = some next →
      (Inv next ↔ Inv state ∧ allowed state input))
    {inputs : List ι} {state final : σ} (hrun : runs step state inputs = some final) :
    Inv final ↔ Inv state ∧ Admissible allowed step state inputs := by
  induction inputs generalizing state with
  | nil =>
      obtain rfl := Option.some.inj hrun
      simp [Admissible]
  | cons input inputs ih =>
      obtain ⟨next, hnext, hrest⟩ := Option.bind_eq_some_iff.mp hrun
      rw [ih hrest, hstep state input next hnext, Admissible, hnext, and_assoc]

/-- What is known of every input makes the inputs admissible. -/
theorem admissible_of_forall {allowed : σ → ι → Prop} {step : σ → ι → Option σ} {inputs : List ι}
    (hinputs : ∀ input ∈ inputs, ∀ state, allowed state input) (start : σ) :
    Admissible allowed step start inputs := by
  induction inputs generalizing start with
  | nil => trivial
  | cons input inputs ih =>
      obtain ⟨hallowed, hothers⟩ := List.forall_mem_cons.mp hinputs
      refine ⟨hallowed start, ?_⟩
      cases step start input with
      | none => trivial
      | some next => exact ih hothers next

/-- What is known of every input on its own is known of it in the state it
meets. -/
theorem Admissible.and_forall {allowed : σ → ι → Prop} {step : σ → ι → Option σ} {known : ι → Prop}
    {start : σ} {inputs : List ι} (hinputs : Admissible allowed step start inputs)
    (hknown : ∀ input ∈ inputs, known input) :
    Admissible (fun state input => allowed state input ∧ known input) step start inputs :=
  hinputs.and (admissible_of_forall (fun input hinput _ => hknown input hinput) start)

/-- When what is observed of a state holds as long as every step is allowed, and
fails after a step that is not, it holds of every state of a run just when the
run is admissible. -/
theorem runs_always_iff_of_admissible {accepted allowed : σ → ι → Prop} {step : σ → ι → Option σ}
    {Inv Q : σ → Prop} (hobserve : ∀ state, Inv state → Q state)
    (hkeep : ∀ state input next, Inv state → accepted state input → allowed state input →
      step state input = some next → Inv next)
    (hbreak : ∀ state input next, Inv state → accepted state input →
      step state input = some next → ¬ allowed state input → ¬ Q next)
    {inputs : List ι} {start final : σ} (hinputs : Admissible accepted step start inputs)
    (hinv : Inv start) (hrun : runs step start inputs = some final) :
    (∀ earlier, earlier <+: inputs → ∀ state, runs step start earlier = some state → Q state) ↔
      Admissible allowed step start inputs := by
  induction inputs generalizing start with
  | nil =>
      refine iff_of_true ?_ trivial
      intro earlier hearlier state hstate
      rw [List.prefix_nil.mp hearlier] at hstate
      obtain rfl := Option.some.inj hstate
      exact hobserve start hinv
  | cons input inputs ih =>
      obtain ⟨next, hnext, hrest⟩ := Option.bind_eq_some_iff.mp hrun
      obtain ⟨haccepted, hothers⟩ := hinputs
      rw [hnext] at hothers
      have hlater : ∀ earlier, runs step start (input :: earlier) = runs step next earlier := by
        intro earlier
        rw [runs, hnext, Option.bind_some]
      rw [Admissible, hnext]
      constructor
      · intro hall
        have hallowed : allowed start input := by
          by_contra hnot
          refine hbreak start input next hinv haccepted hnext hnot (hall [input] ?_ next ?_)
          · exact List.prefix_append [input] inputs
          · rw [hlater, runs]
        refine ⟨hallowed, (ih hothers (hkeep start input next hinv haccepted hallowed hnext)
          hrest).mp ?_⟩
        intro earlier hearlier state hstate
        refine hall (input :: earlier) ?_ state ?_
        · exact List.cons_prefix_cons.mpr ⟨rfl, hearlier⟩
        · rw [hlater, hstate]
      · rintro ⟨hallowed, hadmissible⟩ earlier hearlier state hstate
        cases earlier with
        | nil =>
            obtain rfl := Option.some.inj hstate
            exact hobserve start hinv
        | cons first earlier =>
            obtain ⟨rfl, hbelow⟩ := List.cons_prefix_cons.mp hearlier
            rw [hlater] at hstate
            exact (ih hothers (hkeep start first next hinv haccepted hallowed hnext)
              hrest).mpr hadmissible earlier hbelow state hstate

/-- The same when what is known of the inputs does not depend on the states. -/
theorem runs_always_iff {accepted : ι → Prop} {allowed : σ → ι → Prop} {step : σ → ι → Option σ}
    {Inv Q : σ → Prop} (hobserve : ∀ state, Inv state → Q state)
    (hkeep : ∀ state input next, Inv state → accepted input → allowed state input →
      step state input = some next → Inv next)
    (hbreak : ∀ state input next, step state input = some next → ¬ allowed state input → ¬ Q next)
    {inputs : List ι} (hinputs : ∀ input ∈ inputs, accepted input) {start final : σ}
    (hinv : Inv start) (hrun : runs step start inputs = some final) :
    (∀ earlier, earlier <+: inputs → ∀ state, runs step start earlier = some state → Q state) ↔
      Admissible allowed step start inputs := by
  have hadmissible : Admissible (fun _ => accepted) step start inputs :=
    admissible_of_forall (fun input hinput _ => hinputs input hinput) start
  refine runs_always_iff_of_admissible hobserve hkeep ?_ hadmissible hinv hrun
  intro state input next _ _ hnext hnot
  exact hbreak state input next hnext hnot

/-- What every step that has a result keeps holds after every run that has
one. -/
theorem runs_maintains {step : σ → ι → Option σ} {Inv : σ → Prop}
    (hstep : ∀ state input next, Inv state → step state input = some next → Inv next)
    {inputs : List ι} {state final : σ} (hinv : Inv state)
    (hrun : runs step state inputs = some final) : Inv final := by
  induction inputs generalizing state with
  | nil =>
      obtain rfl := Option.some.inj hrun
      exact hinv
  | cons input inputs ih =>
      obtain ⟨next, hnext, hrest⟩ := Option.bind_eq_some_iff.mp hrun
      exact ih (hstep state input next hinv hnext) hrest

/-- An invariant that counts the steps, where what is known of an input may
depend on its position. -/
theorem runs_counts {allowed : σ → ι → Prop} {step : σ → ι → Option σ} {Inv : Nat → σ → Prop}
    {inputs : List ι}
    (hstep : ∀ n state input next, Inv n state → inputs[n]? = some input → allowed state input →
      step state input = some next → Inv (n + 1) next)
    {state final : σ} (hinv : Inv 0 state) (hinputs : Admissible allowed step state inputs)
    (hrun : runs step state inputs = some final) : Inv inputs.length final := by
  -- the inputs from position `n` on are left
  have hleft : ∀ n state, Inv n state → Admissible allowed step state (inputs.drop n) →
      runs step state (inputs.drop n) = some final → Inv (n + (inputs.drop n).length) final := by
    intro n
    induction hlast : inputs.length - n generalizing n with
    | zero =>
        intro state hinv _ hrun
        rw [List.drop_of_length_le (by omega)] at hrun ⊢
        obtain rfl := Option.some.inj hrun
        exact hinv
    | succ left ih =>
        intro state hinv hinputs hrun
        have hlt : n < inputs.length := by omega
        rw [List.drop_eq_getElem_cons hlt] at hinputs hrun ⊢
        obtain ⟨hallowed, hothers⟩ := hinputs
        obtain ⟨next, hnext, hrest⟩ := Option.bind_eq_some_iff.mp hrun
        rw [hnext] at hothers
        have hinv' := hstep n state _ next hinv (List.getElem?_eq_getElem hlt) hallowed hnext
        have hfinal := ih (n + 1) (by omega) next hinv' hothers hrest
        rwa [List.length_cons, Nat.add_comm _ 1, ← Nat.add_assoc]
  simpa using hleft 0 state hinv hinputs hrun

/-- What every allowed step keeps holds after every admissible run. -/
theorem runs_invariant {allowed : σ → ι → Prop} {step : σ → ι → Option σ} {Inv : σ → Prop}
    (hstep : ∀ state input, Inv state → allowed state input →
      ∃ next, step state input = some next ∧ Inv next)
    {inputs : List ι} {state : σ} (hinv : Inv state)
    (hinputs : Admissible allowed step state inputs) :
    ∃ final, runs step state inputs = some final ∧ Inv final :=
  @runs_simulates σ Unit ι allowed step (fun _ _ => ()) (fun state _ => Inv state)
    (fun state _ input => hstep state input) inputs state () hinv hinputs

/-- A check that is enough where the invariant holds. -/
theorem admissible_of_checked {checked allowed : σ → ι → Prop} {step : σ → ι → Option σ}
    {Inv : σ → Prop}
    (hstep : ∀ state input, Inv state → allowed state input →
      ∃ next, step state input = some next ∧ Inv next)
    (hcheck : ∀ state input, Inv state → checked state input → allowed state input)
    {inputs : List ι} {start : σ} (hinv : Inv start)
    (hinputs : Admissible checked step start inputs) : Admissible allowed step start inputs := by
  induction inputs generalizing start with
  | nil => trivial
  | cons input inputs ih =>
      obtain ⟨hchecked, hrest⟩ := hinputs
      have hallowed := hcheck start input hinv hchecked
      obtain ⟨next, hnext, hinv'⟩ := hstep start input hinv hallowed
      rw [hnext] at hrest
      exact ⟨hallowed, by rw [hnext]; exact ih hinv' hrest⟩

/-- Each input of an admissible run meets a state in which the invariant
holds, and is allowed there. -/
theorem runs_before {allowed : σ → ι → Prop} {step : σ → ι → Option σ} {Inv : σ → Prop}
    (hstep : ∀ state input, Inv state → allowed state input →
      ∃ next, step state input = some next ∧ Inv next)
    {inputs : List ι} {start : σ} (hinv : Inv start) (hinputs : Admissible allowed step start inputs)
    {earlier : List ι} {input : ι} (hbefore : earlier ++ [input] <+: inputs) :
    ∃ state, runs step start earlier = some state ∧ Inv state ∧ allowed state input := by
  induction inputs generalizing start earlier with
  | nil => simp at hbefore
  | cons first inputs ih =>
      obtain ⟨hallowed, hrest⟩ := hinputs
      cases earlier with
      | nil =>
          obtain ⟨rfl, -⟩ := List.cons_prefix_cons.mp hbefore
          exact ⟨start, rfl, hinv, hallowed⟩
      | cons second earlier =>
          obtain ⟨rfl, hbelow⟩ := List.cons_prefix_cons.mp hbefore
          obtain ⟨next, hnext, hinv'⟩ := hstep start second hinv hallowed
          rw [hnext] at hrest
          obtain ⟨state, hrun, hstate⟩ := ih hinv' hrest hbelow
          exact ⟨state, by rw [runs, hnext]; exact hrun, hstate⟩

end Run
