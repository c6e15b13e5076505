/-
This file follows a run from round to round until it ends, and says which runs end alike.
-/

import RouteSearch.Search.Course
import RouteSearch.Proofs.Steps

namespace RouteSearch

variable {W X Y S T : Type} [Weight W]

namespace Planner

/-- A run ends after the steps, at the limit or because the search has finished. -/
inductive Ends (planner : Planner W X S) :
    Clock → Search W X S → List (Step W) → Option Limit → Prop
  | finished {clock search} (finished : search.finished = true) : Ends planner clock search [] none
  | limited {clock search limit} (unfinished : search.finished = false)
      (reached : planner.reachedLimit? search (clock 0) = some limit) :
      Ends planner clock search [] (some limit)
  | on {clock search steps limit} (unfinished : search.finished = false)
      (free : planner.reachedLimit? search (clock 0) = none)
      (ends : Ends planner (fun reading => clock (reading + 1))
        (planner.advance search.cheaperDirection search).2 steps limit) :
      Ends planner clock search (⟨search.cheaperDirection, none⟩ :: steps) limit

variable {planner : Planner W X S} {search last : Search W X S} {clock later : Clock}
  {steps : List (Step W)} {limit : Option Limit}

theorem Ends.runToEnd? (ends : planner.Ends clock search steps limit) :
    planner.runToEnd? clock search = some { planner.follow steps search with limit := limit } := by
  induction ends with
  | finished finished =>
      rw [Planner.runToEnd?, if_pos finished]
      rfl
  | limited unfinished reached =>
      rw [Planner.runToEnd?, if_neg (Bool.eq_false_iff.mp unfinished), reached]
      rfl
  | on unfinished free _ ih =>
      rw [Planner.runToEnd?, if_neg (Bool.eq_false_iff.mp unfinished), free]
      exact ih

theorem Ends.stepsToEnd? (ends : planner.Ends clock search steps limit) :
    planner.stepsToEnd? clock search = some steps := by
  induction ends with
  | finished finished => rw [Planner.stepsToEnd?, if_pos finished]
  | limited unfinished reached =>
      rw [Planner.stepsToEnd?, if_neg (Bool.eq_false_iff.mp unfinished), reached]
  | on unfinished free _ ih =>
      rw [Planner.stepsToEnd?, if_neg (Bool.eq_false_iff.mp unfinished), free]
      dsimp only
      rw [ih]
      rfl

/-- A round finds that the search has finished, or that a limit is reached, or goes on. -/
theorem round_cases {A : Type} {now : Nat} {finish onward outcome : A} {stop : Limit → A}
    (round : (if search.finished then finish
      else
        match planner.reachedLimit? search now with
        | some limit => stop limit
        | none => onward) = outcome) :
    (search.finished = true ∧ finish = outcome) ∨
      (search.finished = false ∧
        ∃ limit, planner.reachedLimit? search now = some limit ∧ stop limit = outcome) ∨
      search.finished = false ∧ planner.reachedLimit? search now = none ∧ onward = outcome := by
  split at round
  · rename_i finished
    exact .inl ⟨finished, round⟩
  · rename_i unfinished
    rw [Bool.not_eq_true] at unfinished
    split at round
    · rename_i limit reached
      exact .inr (.inl ⟨unfinished, limit, reached, round⟩)
    · rename_i free
      exact .inr (.inr ⟨unfinished, free, round⟩)

theorem runToEnd?_eq_some :
    planner.runToEnd? clock search = some last ↔ ∃ steps limit,
      planner.Ends clock search steps limit ∧
        { planner.follow steps search with limit := limit } = last := by
  constructor
  · refine runToEnd?.partial_correctness planner (fun clock search last => ∃ steps limit,
      planner.Ends clock search steps limit ∧
        { planner.follow steps search with limit := limit } = last) ?_ clock search last
    intro approximation ih clock search last round
    rcases round_cases round with
      ⟨finished, isLast⟩ | ⟨unfinished, limit, reached, isLast⟩ | ⟨unfinished, free, later⟩
    · exact ⟨[], none, .finished finished, Option.some.inj isLast⟩
    · exact ⟨[], some limit, .limited unfinished reached, Option.some.inj isLast⟩
    · obtain ⟨steps, limit, ends, isLast⟩ := ih _ _ _ later
      exact ⟨_, limit, .on unfinished free ends, isLast⟩
  · rintro ⟨steps, limit, ends, rfl⟩
    exact ends.runToEnd?

theorem stepsToEnd?_eq_some :
    planner.stepsToEnd? clock search = some steps ↔
      ∃ limit, planner.Ends clock search steps limit := by
  constructor
  · refine stepsToEnd?.partial_correctness planner
      (fun clock search steps => ∃ limit, planner.Ends clock search steps limit) ?_ clock search
        steps
    intro approximation ih clock search steps round
    rcases round_cases round with
      ⟨finished, isSteps⟩ | ⟨unfinished, limit, reached, isSteps⟩ | ⟨unfinished, free, later⟩
    · cases isSteps
      exact ⟨none, .finished finished⟩
    · cases isSteps
      exact ⟨some limit, .limited unfinished reached⟩
    · obtain ⟨rest, isRest, isSteps⟩ := Option.bind_eq_some_iff.mp later
      cases isSteps
      obtain ⟨limit, ends⟩ := ih _ _ _ isRest
      exact ⟨limit, .on unfinished free ends⟩
  · rintro ⟨limit, ends⟩
    exact ends.stepsToEnd?

/-- A run goes through steps until it ends. If it never ends, nothing happens to the search but
that its start is noted. -/
theorem run_cases (planner : Planner W X S) (clock : Clock) (search : Search W X S) :
    let begun := { search with startedAt := some (search.startedAt.getD (clock 0)) }
    (∃ steps limit, planner.Ends (fun reading => clock (reading + 1)) begun steps limit ∧
      planner.run clock search = { planner.follow steps begun with limit := limit } ∧
      planner.takenByRun clock search = planner.taken steps begun) ∨
    planner.run clock search = begun ∧ planner.takenByRun clock search = [] := by
  intro begun
  unfold run takenByRun
  dsimp only
  cases outcome : planner.runToEnd? (fun reading => clock (reading + 1)) begun with
  | some last =>
      obtain ⟨steps, limit, ends, rfl⟩ := runToEnd?_eq_some.mp outcome
      refine .inl ⟨steps, limit, ends, rfl, by rw [ends.stepsToEnd?]; rfl⟩
  | none =>
      have endless : planner.stepsToEnd? (fun reading => clock (reading + 1)) begun = none := by
        rw [Option.eq_none_iff_forall_ne_some]
        intro steps isSteps
        obtain ⟨limit, ends⟩ := stepsToEnd?_eq_some.mp isSteps
        cases outcome.symm.trans ends.runToEnd?
      exact .inr ⟨rfl, by rw [endless]; rfl⟩

/-- What advances keep, a run that ends keeps up to its limit. -/
theorem Ends.keeps {P : Search W X S → Prop}
    (advanced : ∀ search direction, P search → P (planner.advance direction search).2)
    (ends : planner.Ends clock search steps limit) (holds : P search) :
    P (planner.follow steps search) := by
  induction ends with
  | finished finished => exact holds
  | limited unfinished reached => exact holds
  | on unfinished free _ ih => exact ih (advanced _ _ holds)

/-- What advances keep, a run keeps, unless it looks at the time or at the limit. -/
theorem run_keeps {P : Search W X S → Prop}
    (timed : ∀ search startedAt limit, P search →
      P { search with startedAt := startedAt, limit := limit })
    (advanced : ∀ search direction, P search → P (planner.advance direction search).2)
    (clock : Clock) (holds : P search) : P (planner.run clock search) := by
  have begun := timed search (some (search.startedAt.getD (clock 0))) search.limit holds
  rcases planner.run_cases clock search with ⟨steps, limit, ends, isRun, _⟩ | ⟨isRun, _⟩
  · rw [isRun]
    exact timed _ _ _ (ends.keeps advanced begun)
  · rw [isRun]
    exact begun

/-- There is nothing left to run once a search has finished. -/
theorem run_of_finished (finished : search.finished = true) (clock : Clock) :
    planner.run clock search =
      { search with startedAt := some (search.startedAt.getD (clock 0)), limit := none } := by
  have ends : planner.Ends (fun reading => clock (reading + 1))
      { search with startedAt := some (search.startedAt.getD (clock 0)) } [] none :=
    .finished finished
  rw [run, ends.runToEnd?]
  rfl

omit [Weight W] in
theorem reachedLimit?_eq_none (noVisits : planner.settings.maxVisited = none)
    (noTime : planner.settings.timeoutMs = none) (search : Search W X S) (now : Nat) :
    planner.reachedLimit? search now = none := by
  simp [reachedLimit?, noVisits, noTime]

/-- A run without limits ends with the search that has finished. -/
theorem Runs.runToEnd? (runs : planner.Runs search last) (finished : last.finished = true)
    (noVisits : planner.settings.maxVisited = none) (noTime : planner.settings.timeoutMs = none)
    (clock : Clock) : planner.runToEnd? clock search = some { last with limit := none } := by
  induction runs generalizing clock with
  | here => rw [Planner.runToEnd?, if_pos finished]
  | on unfinished _ ih =>
      rw [Planner.runToEnd?, if_neg (Bool.eq_false_iff.mp unfinished),
        reachedLimit?_eq_none noVisits noTime]
      exact ih finished _

/-- If a bound on visits is kept, and every round visits a label or finishes the search, a run
without limits comes to an end. -/
theorem runs_of_bounded {P : Search W X S → Prop} {bound : Nat}
    (bounded : ∀ search, P search → search.visited ≤ bound)
    (kept : ∀ search, P search → P (planner.advance search.cheaperDirection search).2)
    (advances : ∀ search, P search →
      (planner.advance search.cheaperDirection search).2.visited = search.visited + 1 ∨
        (planner.advance search.cheaperDirection search).2.finished = true)
    (holds : P search) : ∃ last, planner.Runs search last ∧ last.finished = true := by
  have within (rounds : Nat) (search : Search W X S) (holds : P search)
      (enough : bound < search.visited + rounds) :
      ∃ last, planner.Runs search last ∧ last.finished = true := by
    induction rounds generalizing search with
    | zero => exact absurd (bounded search holds) (Nat.not_le.mpr enough)
    | succ rounds ih =>
        cases finished : search.finished with
        | true => exact ⟨search, .here search, finished⟩
        | false =>
            rcases advances search holds with counted | ended
            · obtain ⟨last, runs, isLast⟩ := ih _ (kept search holds) (by omega)
              exact ⟨last, .on finished runs, isLast⟩
            · exact ⟨_, .on finished (.here _), ended⟩
  exact within (bound + 1) search holds (by omega)

section Paces

variable {other : Planner W Y T} {image : Search W X S → Search W Y T}

/-- The searches of one planner have their images among those of another one, and neither a step
nor an end tells them apart. -/
structure Paces (planner : Planner W X S) (other : Planner W Y T)
    (image : Search W X S → Search W Y T) : Prop where
  finished : ∀ search, (image search).finished = search.finished
  turn : ∀ search, (image search).cheaperDirection = search.cheaperDirection
  follow : ∀ steps search, other.follow steps (image search) = image (planner.follow steps search)
  stop : ∀ search limit, { image search with limit := limit } = image { search with limit := limit }

namespace Paces

variable (paces : Paces planner other image)
include paces

section Alike

variable (alike : ∀ moment reading, moment.startedAt = search.startedAt →
  other.reachedLimit? (image moment) (later reading) = planner.reachedLimit? moment (clock reading))
include alike

/-- Runs that keep pace, and meet the same limits at the same readings, end alike. -/
theorem ends_iff :
    other.Ends later (image search) steps limit ↔ planner.Ends clock search steps limit := by
  -- Not every search of the other planner is an image, but both runs make the same steps.
  induction steps generalizing search clock later with
  | nil =>
      constructor
      · rintro (finished | ⟨unfinished, reached⟩)
        · exact .finished (paces.finished search ▸ finished)
        · exact .limited (paces.finished search ▸ unfinished) (alike search 0 rfl ▸ reached)
      · rintro (finished | ⟨unfinished, reached⟩)
        · exact .finished ((paces.finished search).trans finished)
        · exact .limited ((paces.finished search).trans unfinished)
            ((alike search 0 rfl).trans reached)
  | cons step steps ih =>
      have next : (other.advance search.cheaperDirection (image search)).2 =
          image (planner.advance search.cheaperDirection search).2 :=
        paces.follow [⟨search.cheaperDirection, none⟩] search
      have alikeOn (moment : Search W X S) (reading : Nat)
          (same : moment.startedAt =
            (planner.advance search.cheaperDirection search).2.startedAt) :
          other.reachedLimit? (image moment) (later (reading + 1)) =
            planner.reachedLimit? moment (clock (reading + 1)) :=
        alike moment (reading + 1)
          (same.trans (planner.advanceUnder_touches _ none search).startedAt)
      have onward := ih alikeOn
      rw [← next] at onward
      constructor
      · rintro (_ | _ | ⟨unfinished, free, ends⟩)
        rw [paces.turn] at ends ⊢
        exact .on (paces.finished search ▸ unfinished) (alike search 0 rfl ▸ free) (onward.mp ends)
      · rintro (_ | _ | ⟨unfinished, free, ends⟩)
        have alsoEnds := onward.mpr ends
        rw [← paces.turn] at alsoEnds ⊢
        exact .on ((paces.finished search).trans unfinished) ((alike search 0 rfl).trans free)
          alsoEnds

/-- A run ends with the image of the search that the one it keeps pace with ends with. -/
theorem runToEnd?_eq :
    other.runToEnd? later (image search) = (planner.runToEnd? clock search).map image := by
  ext last
  simp only [runToEnd?_eq_some, Option.map_eq_some_iff, paces.ends_iff alike, paces.follow,
    paces.stop]
  constructor
  · rintro ⟨steps, limit, ends, rfl⟩
    exact ⟨_, ⟨steps, limit, ends, rfl⟩, rfl⟩
  · rintro ⟨_, ⟨steps, limit, ends, rfl⟩, rfl⟩
    exact ⟨steps, limit, ends, rfl⟩

/-- A run makes the same steps as one that it keeps pace with. -/
theorem stepsToEnd?_eq :
    other.stepsToEnd? later (image search) = planner.stepsToEnd? clock search := by
  ext steps
  simp only [stepsToEnd?_eq_some, paces.ends_iff alike]

end Alike

variable (search) (twin : Search W Y T)
  (begun : { twin with startedAt := some (twin.startedAt.getD (later 0)) } =
    image { search with startedAt := some (search.startedAt.getD (clock 0)) })
  (alike : ∀ moment reading, moment.startedAt = some (search.startedAt.getD (clock 0)) →
    other.reachedLimit? (image moment) (later (reading + 1)) =
      planner.reachedLimit? moment (clock (reading + 1)))

include begun alike

/-- A run leaves the image of what the one it keeps pace with leaves. -/
theorem run_eq : other.run later twin = image (planner.run clock search) := by
  unfold run
  dsimp only
  rw [begun, paces.runToEnd?_eq alike, Option.getD_map]

/-- A run takes the labels at the same steps as the one it keeps pace with. -/
theorem takenByRun_eq : ∃ steps,
    planner.takenByRun clock search = planner.taken steps
      { search with startedAt := some (search.startedAt.getD (clock 0)) } ∧
    other.takenByRun later twin = other.taken steps
      (image { search with startedAt := some (search.startedAt.getD (clock 0)) }) := by
  refine ⟨_, rfl, ?_⟩
  unfold takenByRun
  dsimp only
  rw [begun, paces.stepsToEnd?_eq alike]

end Paces

end Paces

end Planner

end RouteSearch
