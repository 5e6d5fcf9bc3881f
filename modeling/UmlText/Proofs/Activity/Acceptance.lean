import UmlText.Proofs.Activity.Steps

/-!
# Which programs of activity diagrams are accepted

A program none of whose failures is caught is run to its end exactly when each of its calls
fits at its moment; and otherwise the call that fails is the first one that does not fit.
The run follows the program: as long as calls pass, the engine mirrors the moment of the
next one.
-/

namespace UmlText.Activity

/-- Before the first call the engine mirrors an empty surrounding. -/
theorem mirrors_nil : Mirrors [] [] {} :=
  ⟨.nil, by simp [Registry.aliases], by simp, by simp, trivial, rfl⟩

/-- A program in which no failure is caught runs without a flaw exactly when every call fits
at its moment; otherwise the call that fails is the first one that does not fit. -/
theorem allFlawless_iff_fits_and_first_unfit_fails
    (plan : List (Plan dialect))
    (hoffered : Plan.areOffered handles none plan = true) :
    let run := Program.runAll dialect.authoring {} (Plan.programOf plan)
    (Report.allFlawless run.reports = true ↔ ∀ m ∈ Plan.momentsOf [] [] plan, Fits m) ∧
    ((∃ m ∈ Plan.momentsOf [] [] plan, ¬Fits m) →
      ∃ first m rest, Plan.momentsOf [] [] plan = first ++ m :: rest ∧
        (∀ m' ∈ first, Fits m') ∧ ¬Fits m ∧
        run.after.engine.failedAt = some (first.length + 1)) :=
  judges.allFlawless_iff sound faithful mirrors_nil plan hoffered

/-- A `break` inside a decision that no loop surrounds. -/
def strayBreak : List (Plan dialect) :=
  [.call (.action { text := "go" }),
   .scope (.decision { condition := "ready" }) [.call (.point .leaveLoop)]]

theorem allFlawless_iff_fits_and_first_unfit_fails_of_strayBreak :
    Plan.areOffered handles none strayBreak = true ∧
    (∃ m ∈ Plan.momentsOf [] [] strayBreak, ¬Fits m) ∧
    let run := Program.runAll dialect.authoring {} (Plan.programOf strayBreak)
    Report.allFlawless run.reports ≠ true ∧
      ∃ first m rest, Plan.momentsOf [] [] strayBreak = first ++ m :: rest ∧
        (∀ m' ∈ first, Fits m') ∧ ¬Fits m ∧
        run.after.engine.failedAt = some (first.length + 1) := by
  have hoffered : Plan.areOffered handles none strayBreak = true := by rfl
  have hunfit : ∃ m ∈ Plan.momentsOf [] [] strayBreak, ¬Fits m := by
    refine ⟨⟨.call (.point .leaveLoop), [⟨.decision { condition := "ready" }, []⟩],
      [.action { text := "go" }]⟩, ?_, fun hfits => ?_⟩
    · simp [strayBreak, Plan.momentsOf, Plan.moments, Plan.calls, Plan.noted]
    · simpa [Opening.isLoop] using hfits.leaves_loop rfl
  obtain ⟨hflawless, hfails⟩ := allFlawless_iff_fits_and_first_unfit_fails strayBreak hoffered
  refine ⟨hoffered, hunfit, ?_, hfails hunfit⟩
  obtain ⟨m, hmem, hm⟩ := hunfit
  exact fun h => hm (hflawless.mp h m hmem)

end UmlText.Activity
