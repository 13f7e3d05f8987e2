import Deadwood.Proofs.Regular

/-! A run of the pipeline fails in reading or not at all. -/
namespace Deadwood

theorem Settings.selected_ok {s : Settings}
    (hpasses : ∀ names, s.passes = some names → ∀ n ∈ names, (Pass.ofName? n).isSome)
    (hrounds : 1 ≤ s.maxRounds) : ∃ passes, s.selected = .ok passes := by
  have hnames : ∀ n ∈ s.passes.getD (Pass.all.map (·.name)), (Pass.ofName? n).isSome := by
    cases h : s.passes with
    | none => decide
    | some names => exact hpasses names h
  have hfind : (s.passes.getD (Pass.all.map (·.name))).find? (fun n => (Pass.ofName? n).isNone) = none :=
    List.find?_eq_none.2 fun n hn => by simp [Option.isSome_iff_ne_none.1 (hnames n hn)]
  have hmax : ¬ s.maxRounds < 1 := by omega
  exact ⟨_, by simp only [selected, hfind, if_neg hmax]; rfl⟩

namespace Job

theorem Step.run_ofExcept (e : Except Failure α) (f : α → Step β) (t : Trail) :
    ((MonadExcept.ofExcept e >>= f : Step β).run t) =
      match e with
      | .ok a => (f a).run t
      | .error x => (.error x, t) := by
  cases e <;> rfl

theorem Step.run_modify (g : Trail → Trail) (f : Unit → Step β) (t : Trail) :
    ((modify g >>= f : Step β).run t) = (f ()).run (g t) := rfl

/-- A run that neither saves nor stops early gives what optimising the text gives. -/
theorem run_eq_optimizeSource [Text.CharNames] (job : Job) (w : Workspace) (hdumps : job.dumps = [])
    (hstop : job.stopAfter = none) :
    (job.run w).1 = (optimizeSource job.source job.settings (job.fileName w.cwd)).map Product.text := by
  have hstage : job.unknownStage? = none := by simp [unknownStage?, hdumps, hstop, Report.named]
  have hfinish (stage : Stage) (product : Product) : job.finish w.cwd stage product =
      modify fun t => { t with products := t.products ++ [(stage, product)] } := by
    simp [finish, hdumps]
  have hgoes (stage : Stage) : job.stopsAfter stage = false := by simp [stopsAfter, hstop]
  have hok {ε α β : Type} (a : α) (f : α → Except ε β) : ((.ok a : Except ε α) >>= f) = f a := rfl
  have hmap {ε ε' α : Type} (f : ε → ε') (a : α) : (.ok a : Except ε α).mapError f = .ok a := rfl
  simp only [run, hstage, stages, readTree, optimizeTree, hfinish, hgoes, optimizeSource, note, bind_assoc,
    pure_bind, Bool.false_eq_true, if_false, Step.run_ofExcept, Step.run_modify]
  cases Program.parse job.source (job.fileName w.cwd) with
  | error e => rfl
  | ok p =>
    simp only [hmap, hok]
    cases (p.optimize job.settings).result with
    | error e => rfl
    | ok progress =>
      simp only [hmap, hok]
      cases progress.program.print with
      | error e => rfl
      | ok text => rfl

end Job

/-- Nothing fails once a script is read: its tree is regular and stays so under any passes, so it
can be printed, and a run gives the text of the optimised tree. A script that is not read is
reported, or has a literal without a value. -/
theorem run_of_parse [Text.CharNames] (job : Job) (w : Workspace)
    (hpasses : ∀ names, job.settings.passes = some names → ∀ n ∈ names, (Pass.ofName? n).isSome)
    (hrounds : 1 ≤ job.settings.maxRounds) (hvalidate : job.settings.validate = false)
    (hdumps : job.dumps = []) (hstop : job.stopAfter = none) :
    match Program.parse job.source (job.fileName w.cwd) with
    | .ok p =>
      (∀ passes, (Pass.applyAll passes p).all Node.isRegular ∧
        ∀ indent, ∃ text, (Pass.applyAll passes p).print indent = .ok text) ∧
      ∃ passes text, job.settings.selected = .ok passes ∧ (Pass.applyAll passes p).print = .ok text ∧
        (job.run w).1 = .ok (.text text)
    | .error (.report r) => (job.run w).1 = .error (.report r)
    | .error (.misread m) => (job.run w).1 = .error (.inside m.message) := by
  rw [Job.run_eq_optimizeSource job w hdumps hstop]
  unfold optimizeSource
  split
  · next p hparse =>
    have hregular (passes : List Pass) := Program.isRegular_applyAll (Program.isRegular_of_parse hparse) passes
    refine ⟨fun passes => ⟨hregular passes, Program.print_ok (hregular passes)⟩, ?_⟩
    obtain ⟨passes, hselected⟩ := Settings.selected_ok hpasses hrounds
    obtain hresult | ⟨habsurd, -⟩ := p.optimize_result hselected
    · have hprogram := p.optimize_program hselected
      obtain ⟨text, htext⟩ := Program.print_ok (hregular passes) Print.defaultIndent
      refine ⟨passes, text, hselected, htext, ?_⟩
      rw [hparse]
      change Except.map Product.text ((p.optimize job.settings).result.mapError OptimizeError.failure >>=
        fun progress => progress.program.print.mapError fun e => Failure.inside e.message) = _
      rw [hresult]
      change Except.map Product.text
        ((p.optimize job.settings).progress.program.print.mapError fun e => Failure.inside e.message) = _
      rw [hprogram, htext]
      rfl
    · simp [hvalidate] at habsurd
  · next r hparse =>
    rw [hparse]
    rfl
  · next m hparse =>
    rw [hparse]
    rfl

/-- Of `2147483647L + 1L` and `x %in% -3L` the first does not fold, and both are printed. -/
theorem run_of_parse_integers :
    let job : Job := { source := "2147483647L + 1L\nx %in% -3L" }
    let w : Workspace := ⟨⟨[], false⟩, {}⟩
    ∃ text, (job.run w).1 = .ok (.text text) := by
  intro job w
  have hrun := run_of_parse job w (by simp [job]) (by decide) rfl rfl rfl
  have hread : (Program.parse job.source (job.fileName w.cwd)).toOption.isSome := by decide +kernel
  cases hparse : Program.parse job.source (job.fileName w.cwd) with
  | error e => simp [hparse, Except.toOption] at hread
  | ok p =>
    rw [hparse] at hrun
    obtain ⟨-, passes, text, -, -, htext⟩ := hrun
    exact ⟨text, htext⟩

end Deadwood
