import Deadwood.Command.Run
import Deadwood.Proofs.Encoded
import Deadwood.Proofs.Files
import Deadwood.Proofs.Pipeline

/-! What a run of the command line leaves behind. A run is all or nothing if, where it fails, it has changed no
file and printed nothing in the place of the script, and, where it succeeds, it delivers the optimised script and
nothing else. Every run is so but for those that fail with the output file open: the script holds a surrogate,
which cannot be written, or the line that tells the path of the file cannot be printed. -/
namespace Deadwood

namespace Job

namespace Step

theorem run_bind (x : Step α) (f : α → Step β) (t : Trail) :
    (x >>= f : Step β).run t = ExceptT.bindCont f (x.run t).1 (x.run t).2 := rfl

/-- A step that touches no file and prints nothing. -/
def Quiet (x : Step α) : Prop := ∀ t, (x.run t).2.store = t.store ∧ (x.run t).2.stdout = t.stdout

/-- A step that does not fail. -/
def Sure (x : Step α) : Prop := ∀ t, ∃ a, (x.run t).1 = .ok a

/-- A step that touches no file and prints nothing where it fails. -/
def Clean (x : Step α) : Prop :=
  ∀ t e, (x.run t).1 = .error e → (x.run t).2.store = t.store ∧ (x.run t).2.stdout = t.stdout

theorem Quiet.bind {x : Step α} {f : α → Step β} (hx : Quiet x) (hf : ∀ a, Quiet (f a)) : Quiet (x >>= f) := by
  intro t
  rw [run_bind]
  cases (x.run t).1 with
  | error e => exact hx t
  | ok a => exact ⟨(hf a _).1.trans (hx t).1, (hf a _).2.trans (hx t).2⟩

theorem Sure.bind {x : Step α} {f : α → Step β} (hx : Sure x) (hf : ∀ a, Sure (f a)) : Sure (x >>= f) := by
  intro t
  obtain ⟨a, ha⟩ := hx t
  rw [run_bind, ha]
  exact hf a (x.run t).2

/-- What may still fail comes before what leaves a mark. -/
theorem Quiet.bind_clean {x : Step α} {f : α → Step β} (hx : Quiet x) (hf : ∀ a, Clean (f a)) :
    Clean (x >>= f) := by
  intro t e
  rw [run_bind]
  cases (x.run t).1 with
  | error e' => exact fun _ => hx t
  | ok a =>
    intro he
    obtain ⟨hstore, hstdout⟩ := hf a (x.run t).2 e he
    exact ⟨hstore.trans (hx t).1, hstdout.trans (hx t).2⟩

/-- What has left a mark is followed by what does not fail. -/
theorem Clean.bind_sure {x : Step α} {f : α → Step β} (hx : Clean x)
    (hf : ∀ t a, (x.run t).1 = .ok a → Sure (f a)) : Clean (x >>= f) := by
  intro t e
  rw [run_bind]
  cases hrun : (x.run t).1 with
  | error e' => exact fun _ => hx t e' hrun
  | ok a =>
    intro he
    obtain ⟨b, hb⟩ := hf t a hrun (x.run t).2
    exact absurd (hb.symm.trans he) nofun

theorem quiet_pure (a : α) : Quiet (pure a : Step α) := fun _ => ⟨rfl, rfl⟩

theorem sure_pure (a : α) : Sure (pure a : Step α) := fun _ => ⟨a, rfl⟩

theorem quiet_ofExcept (e : Except Failure α) : Quiet (MonadExcept.ofExcept e : Step α) := by
  cases e with
  | error x => exact fun _ => ⟨rfl, rfl⟩
  | ok a => exact fun _ => ⟨rfl, rfl⟩

theorem quiet_note (lines : List LogLine) : Quiet (note lines) := fun _ => ⟨rfl, rfl⟩

end Step

theorem quiet_readTree [Text.CharNames] (job : Job) (file : String) : Step.Quiet (job.readTree file) :=
  (Step.quiet_ofExcept _).bind fun _ => (Step.quiet_note _).bind fun _ => Step.quiet_pure _

theorem quiet_optimizeTree (job : Job) (file : String) (p : Program) : Step.Quiet (job.optimizeTree file p) :=
  (Step.quiet_note _).bind fun _ => (Step.quiet_ofExcept _).bind fun _ =>
    (Step.quiet_note _).bind fun _ => Step.quiet_pure _

theorem quiet_finish {job : Job} {stage : Stage} (h : job.dumps.contains stage.name = false) (cwd : Path)
    (product : Product) : Step.Quiet (job.finish cwd stage product) := by
  unfold finish
  rw [h]
  exact fun _ => ⟨rfl, rfl⟩

theorem sure_say {job : Job} {line : String} (h : job.output.takesAll line) : Step.Sure (job.say line) := by
  rw [say, Text.Encoding.encode_points h]
  exact fun _ => ⟨(), rfl⟩

theorem clean_say (job : Job) (line : String) : Step.Clean (job.say line) := by
  unfold say
  split
  · exact fun _ _ he => nomatch he
  · exact fun _ _ _ => ⟨rfl, rfl⟩

theorem takesAll_of_say {job : Job} {line : String} {t : Trail} {u : Unit} (h : ((job.say line).run t).1 = .ok u) :
    job.output.takesAll line := by
  unfold say at h
  split at h
  · next text htext => exact Text.Encoding.takesAll_of_encode htext
  · cases h

/-- A product is saved, or it is told why not, once the path is told. -/
theorem clean_save {job : Job} {cwd : Path} {stage : Stage}
    (h : (cwd.resolve (job.dumpPath cwd stage)).NullFree) (product : Product) :
    Step.Clean (job.save cwd stage product) := by
  unfold save
  refine (job.clean_say _).bind_sure fun t _ hsaid => ?_
  refine Step.Sure.bind (fun t => ⟨t, rfl⟩) fun t => ?_
  have hwrite := t.store.write_ne_nullByte h (Text.encodeUtf8 product.dump)
  split
  · exact fun _ => ⟨(), rfl⟩
  · next hnull => exact absurd hnull hwrite
  · have hline := takesAll_of_say hsaid
    have hname := job.output.takesAll_of_isAscii (s := stage.name) (by cases stage <;> rfl)
    simp only [Text.Encoding.takesAll_append, Bool.and_eq_true] at hline
    apply sure_say
    simp (disch := decide) only [Text.Encoding.takesAll_append, Text.Encoding.takesAll_of_isAscii,
      Text.takesAll_describe hline.1.2, hname, Bool.and_self]

theorem clean_finish {job : Job} {cwd : Path} {stage : Stage}
    (h : (cwd.resolve (job.dumpPath cwd stage)).NullFree) (product : Product) :
    Step.Clean (job.finish cwd stage product) := by
  refine Step.Quiet.bind_clean (fun _ => ⟨rfl, rfl⟩) fun _ => ?_
  split
  · exact clean_save h product
  · exact fun _ _ he => nomatch he

/-- A job that saves what it stops at saves last, so whatever fails has left nothing behind. -/
theorem clean_stages [Text.CharNames] {job : Job} (cwd : Path)
    (hlast : ∀ stage : Stage, job.dumps.contains stage.name = job.stopsAfter stage)
    (h : ∀ stage, (cwd.resolve (job.dumpPath cwd stage)).NullFree) :
    Step.Clean (job.stages cwd) := by
  refine (job.quiet_readTree _).bind_clean fun p => ?_
  cases htree : job.stopsAfter .tree with
  | true => exact (clean_finish (h _) _).bind_sure fun _ _ _ => Step.sure_pure _
  | false =>
    refine (quiet_finish ((hlast _).trans htree) cwd _).bind_clean fun _ => ?_
    refine (job.quiet_optimizeTree _ p).bind_clean fun q => ?_
    cases hoptimized : job.stopsAfter .optimizedTree with
    | true => exact (clean_finish (h _) _).bind_sure fun _ _ _ => Step.sure_pure _
    | false =>
      refine (quiet_finish ((hlast _).trans hoptimized) cwd _).bind_clean fun _ => ?_
      refine (Step.quiet_ofExcept _).bind_clean fun text => ?_
      exact (clean_finish (h _) _).bind_sure fun _ _ _ => Step.sure_pure _

theorem quiet_stages [Text.CharNames] {job : Job} (cwd : Path) (hdumps : job.dumps = [])
    (hstop : job.stopAfter = none) : Step.Quiet (job.stages cwd) := by
  have hfinish (stage : Stage) (product : Product) : Step.Quiet (job.finish cwd stage product) :=
    quiet_finish (by rw [hdumps]; rfl) cwd product
  have hgoes (stage : Stage) : job.stopsAfter stage = false := by rw [stopsAfter, hstop]; rfl
  unfold stages
  simp only [hgoes, Bool.false_eq_true, if_false]
  refine (job.quiet_readTree _).bind fun p => (hfinish _ _).bind fun _ => ?_
  refine (job.quiet_optimizeTree _ p).bind fun q => (hfinish _ _).bind fun _ => ?_
  exact (Step.quiet_ofExcept _).bind fun text => (hfinish _ _).bind fun _ => Step.quiet_pure _

theorem run_error [Text.CharNames] {job : Job} {w : Workspace} {f : Failure}
    (hlast : ∀ stage : Stage, job.dumps.contains stage.name = job.stopsAfter stage)
    (hpaths : ∀ stage, (w.cwd.resolve (job.dumpPath w.cwd stage)).NullFree) (h : (job.run w).1 = .error f) :
    (job.run w).2.store = w.store ∧ (job.run w).2.stdout = "" := by
  unfold run at h ⊢
  split
  · exact ⟨rfl, rfl⟩
  · next hknown =>
    rw [hknown] at h
    exact clean_stages w.cwd hlast hpaths _ f h

theorem run_quiet [Text.CharNames] (job : Job) (w : Workspace) (hdumps : job.dumps = [])
    (hstop : job.stopAfter = none) : (job.run w).2.store = w.store ∧ (job.run w).2.stdout = "" := by
  unfold run
  split
  · exact ⟨rfl, rfl⟩
  · exact quiet_stages w.cwd hdumps hstop _

end Job

theorem Report.eq_of_named {f : Option String} {name : String} (h : named f = some name) :
    f = some name ∧ name ≠ "" := by
  unfold named at h
  split at h
  · cases h
  · next hne =>
    subst h
    exact ⟨rfl, fun heq => hne (congrArg some heq)⟩

/-- Whether a file can be opened at a path, once the directories above it are made. -/
def Store.admits (s : Store) (path : Path) : Bool :=
  match s.makeDirectories [] path.parent.parts with
  | .ok made => (made.create path.parts).isOk
  | .error _ => false

namespace Command

namespace Console

/-- A console with the encoding of standard output, and status lines where the options put them. -/
structure Fits (c : Console) (o : Options) (i : Invocation) : Prop where
  encoding : c.encoding = i.output
  statusAside : c.statusAside = o.toStdout

theorem out_eq_ok_iff {c d : Console} {text : List Text.Point} :
    c.out text = .ok d ↔ ∃ s, c.encoding.encode text = .ok s ∧ d = { c with stdout := c.stdout ++ s } := by
  rw [out, bind_eq_ok_iff]
  constructor
  · rintro ⟨s, hs, heq⟩
    exact ⟨s, hs, (Except.ok.inj heq).symm⟩
  · rintro ⟨s, hs, rfl⟩
    exact ⟨s, hs, rfl⟩

theorem stdout_plainStatus {c : Console} (h : c.statusAside) (text : String) :
    (c.plainStatus text).stdout = c.stdout := by
  rw [plainStatus, if_pos h]
  rfl

theorem Fits.plainStatus {c : Console} {o : Options} {i : Invocation} (h : c.Fits o i) (text : String) :
    (c.plainStatus text).Fits o i := by
  unfold Console.plainStatus
  split
  · exact ⟨h.encoding, h.statusAside⟩
  · exact ⟨h.encoding, h.statusAside⟩

/-- A status line on standard output is printed where what it tells is taken. -/
theorem Fits.status_ok_iff {c : Console} {o : Options} {i : Invocation} (h : c.Fits o i) (hout : o.toStdout = false)
    (front name back : String) (hfront : Text.isAscii front) (hback : Text.isAscii back) :
    (∃ d, c.status (front ++ name ++ back) = .ok d) ↔ i.output.takesAll name := by
  rw [Console.status, if_neg (by rw [h.statusAside, hout]; nofun), ← i.output.takesAll_between hfront hback name]
  constructor
  · rintro ⟨d, hd⟩
    obtain ⟨s, hs, -⟩ := out_eq_ok_iff.1 hd
    rw [h.encoding] at hs
    exact Text.Encoding.takesAll_of_encode hs
  · intro htakes
    refine ⟨_, out_eq_ok_iff.2 ⟨front ++ name ++ back, ?_, rfl⟩⟩
    rw [h.encoding, Text.Encoding.encode_points htakes]

end Console

namespace Options

theorem stdout_told (o : Options) (c : Console) (trail : Trail) :
    (o.told c trail).stdout = c.stdout ++ trail.stdout := by
  unfold told
  dsimp only
  split <;> rfl

theorem fits_told {o : Options} {i : Invocation} {c : Console} (h : c.Fits o i) (trail : Trail) :
    (o.told c trail).Fits o i := by
  unfold told
  dsimp only
  split
  · exact ⟨h.encoding, h.statusAside⟩
  · exact ⟨h.encoding, h.statusAside⟩

theorem contains_dumps_job (o : Options) (i : Invocation) (source : String) (stage : Stage) :
    (o.job i source).dumps.contains stage.name = (o.job i source).stopsAfter stage := by
  unfold job Job.stopsAfter
  cases o.stop with
  | none => rfl
  | some k => cases k <;> cases stage <;> rfl

/-- Where a script is read, the places for its products can be looked up too. -/
theorem nullFree_dumpPath {o : Options} {i : Invocation} {source : String} (hcwd : i.workspace.cwd.NullFree)
    (h : o.readScript i = .ok source) (stage : Stage) :
    (i.workspace.cwd.resolve ((o.job i source).dumpPath i.workspace.cwd stage)).NullFree := by
  have hbase : ∀ name, Report.named (o.job i source).file = some name →
      (i.workspace.cwd.resolve name).NullFree := by
    intro name hname
    obtain ⟨f, hf, rfl⟩ := Option.map_eq_some_iff.1 (Report.eq_of_named hname).1
    apply hcwd.resolve
    apply Path.NullFree.text
    unfold readScript at h
    rw [hf] at h
    dsimp only at h
    split at h
    · cases h
    · next hread => exact Store.notMem_of_read hread
  have hname : '\x00' ∉ stage.name.toList := by cases stage <;> decide
  apply hcwd.resolve
  unfold Job.dumpPath
  dsimp only
  rw [String.toList_append, String.toList_append, String.toList_append, List.mem_append, List.mem_append,
    List.mem_append, not_or, not_or, not_or]
  refine ⟨⟨⟨?_, by decide⟩, hname⟩, by decide⟩
  split
  · next name heq => exact Path.notMem_stem (hbase name heq).text
  · decide

theorem attempt_of_readScript [Text.CharNames] {o : Options} {i : Invocation} {source : String}
    (h : o.readScript i = .ok source) (c : Console) : o.attempt i c =
      match (o.job i source).run i.workspace with
      | (.error f, trail) => (o.told c trail, trail.store, .error (.pipeline f))
      | (.ok product, trail) => o.deliver i (o.told c trail) trail.store product := by
  unfold attempt
  rw [h]
  dsimp only
  cases (o.job i source).run i.workspace with
  | mk r trail => cases r <;> rfl

/-- What optimising the script gives, where it can be read. -/
def Yields [Text.CharNames] (o : Options) (i : Invocation) (text : String) : Prop :=
  ∃ content, o.readScript i = .ok content ∧ optimizeSource content o.settings = .ok text

theorem run_job [Text.CharNames] {o : Options} {i : Invocation} (hstop : o.stop = none) (source : String) :
    ((o.job i source).run i.workspace).1 =
      (optimizeSource source o.settings ((o.job i source).fileName i.workspace.cwd)).map Product.text ∧
    ((o.job i source).run i.workspace).2.store = i.workspace.store ∧
    ((o.job i source).run i.workspace).2.stdout = "" := by
  have hdumps : (o.job i source).dumps = [] := by simp [job, hstop]
  have hgoes : (o.job i source).stopAfter = none := by simp [job, hstop]
  exact ⟨Job.run_eq_optimizeSource _ _ hdumps hgoes, Job.run_quiet _ _ hdumps hgoes⟩

/-- An attempt fails before it has left a mark, or it stops early as asked, or there is a text to hand over. -/
theorem attempt_cases [Text.CharNames] {o : Options} {i : Invocation} {c : Console}
    (hcwd : i.workspace.cwd.NullFree) (hc : c.Fits o i) :
    ((o.stop = none → ∀ text, ¬o.Yields i text) ∧ ∃ d t, d.Fits o i ∧ d.stdout = c.stdout ∧
      o.attempt i c = (d, i.workspace.store, .error t)) ∨
    (o.stop ≠ none ∧ (o.attempt i c).2.2 = .ok ()) ∨
    ∃ text trail, o.stop = none ∧ o.Yields i text ∧ trail.stdout = "" ∧
      o.attempt i c = o.deliver i (o.told c trail) i.workspace.store (.text text) := by
  cases hread : o.readScript i with
  | error t =>
    refine .inl ⟨?_, c, t, hc, rfl, by rw [attempt, hread]⟩
    rintro - text ⟨content, hcontent, -⟩
    cases hread.symm.trans hcontent
  | ok source =>
    rw [attempt_of_readScript hread]
    have hjob (hstop : o.stop = none) := run_job (i := i) hstop source
    have hfailed (f : Failure) := Job.run_error (f := f) (o.contains_dumps_job i source) (nullFree_dumpPath hcwd hread)
    generalize (o.job i source).run i.workspace = ended at hjob hfailed
    obtain ⟨r, trail⟩ := ended
    cases r with
    | error f =>
      obtain ⟨hstore, hstdout⟩ := hfailed f rfl
      refine .inl ⟨?_, o.told c trail, .pipeline f, fits_told hc trail, ?_, by rw [← hstore]⟩
      · rintro hstop text ⟨content, hcontent, htext⟩
        cases hread.symm.trans hcontent
        have hresult := (hjob hstop).1
        rw [optimizeSource_eq_ok htext _] at hresult
        cases hresult
      · rw [stdout_told, hstdout, String.append_empty]
    | ok product =>
      cases hstop : o.stop with
      | some k =>
        refine .inr (.inl ⟨nofun, ?_⟩)
        unfold deliver
        rw [hstop]
      | none =>
        obtain ⟨hresult, hstore, hstdout⟩ := hjob hstop
        obtain ⟨text, htext, rfl⟩ := map_eq_ok_iff.1 hresult.symm
        refine .inr (.inr ⟨text, trail, rfl, ⟨source, hread, optimizeSource_eq_ok htext _⟩, hstdout, ?_⟩)
        rw [← hstore]

/-- Writing changes no file and fails, or it leaves an empty file since the text holds a surrogate, or it
succeeds. -/
theorem writeScript_cases (store : Store) (path : Path) (text : List Text.Point) :
    (∃ left t, writeScript store path text = (left, .error t) ∧ store.admits path = false ∧
      left.file? = store.file?) ∨
    (∃ left t, writeScript store path text = (left, .error t) ∧ store.admits path ∧ (∃ s, .lone s ∈ text) ∧
      left.file? = Function.update store.file? path.parts (some [])) ∨
    ∃ left s, writeScript store path text = (left, .ok ()) ∧ store.admits path ∧ text = Text.points s ∧
      left.file? = Function.update store.file? path.parts (some (Text.encodeUtf8 s)) := by
  unfold writeScript Store.admits
  cases hmade : store.makeDirectories [] path.parent.parts with
  | error e => exact .inl ⟨store, .file e, rfl, rfl, rfl⟩
  | ok made =>
    have hdirectories := Store.file?_makeDirectories hmade
    dsimp only
    cases hopened : made.create path.parts with
    | error f => exact .inl ⟨made, .file ⟨f, path.text⟩, rfl, rfl, hdirectories⟩
    | ok opened =>
      dsimp only
      cases hencoded : Text.Encoding.utf8.encode text with
      | error e =>
        refine .inr (.inl ⟨opened, .unencodable e, rfl, rfl, ?_, ?_⟩)
        · exact Text.Encoding.exists_lone_of_encode hencoded
        · rw [Store.file?_create hopened, hdirectories]
      | ok s =>
        refine .inr (.inr ⟨_, s, rfl, rfl, (Text.Encoding.encode_eq_ok_iff.1 hencoded).1, ?_⟩)
        rw [Store.file?_create_put hopened, hdirectories]

theorem deliver_stdout {o : Options} (hstop : o.stop = none) (hout : o.toStdout) (i : Invocation) (c : Console)
    (store : Store) (text : String) : o.deliver i c store (.text text) =
      match c.out (Script.points text) with
      | .error e => (c, store, .error (.unencodable e))
      | .ok d => (d, store, .ok ()) := by
  unfold deliver
  rw [hstop]
  exact if_pos hout

/-- What happens to the output file. -/
theorem deliver_file {o : Options} {i : Invocation} {c : Console} (hstop : o.stop = none)
    (hout : o.toStdout = false) (hc : c.Fits o i) (store : Store) (text : String) :
    let path := o.outputPath i.workspace.cwd
    let ended := (o.deliver i c store (.text text)).2
    (store.admits path = false ∧ ended.2 ≠ .ok () ∧ ended.1.file? = store.file?) ∨
    (store.admits path ∧ (∃ s, .lone s ∈ Script.points text) ∧ ended.2 ≠ .ok () ∧
      ended.1.file? = Function.update store.file? path.parts (some [])) ∨
    (store.admits path ∧ (∀ s, .lone s ∉ Script.points text) ∧ (ended.2 = .ok () ↔ i.output.takesAll path.text) ∧
      ended.1.file? = Function.update store.file? path.parts (some (Text.encodeUtf8 text))) := by
  dsimp only
  unfold deliver
  rw [hstop]
  dsimp only
  rw [if_neg (by rw [hout]; nofun)]
  obtain ⟨left, t, heq, hadmits, hfile⟩ | ⟨left, t, heq, hadmits, hlone, hfile⟩ | ⟨left, s, heq, hadmits, hs, hfile⟩ :=
    writeScript_cases store (o.outputPath i.workspace.cwd) (Script.points text)
  · rw [heq]
    exact .inl ⟨hadmits, nofun, hfile⟩
  · rw [heq]
    exact .inr (.inl ⟨hadmits, hlone, nofun, hfile⟩)
  · rw [heq]
    obtain ⟨rfl, hplain⟩ := Script.eq_of_points_eq hs
    have htold (line : String) := (hc.plainStatus line).status_ok_iff hout "Optimized code written to "
      (o.outputPath i.workspace.cwd).text "\n" rfl rfl
    dsimp only
    split
    · next e hline =>
      refine .inr (.inr ⟨hadmits, hplain, ⟨nofun, fun htakes => ?_⟩, hfile⟩)
      obtain ⟨d, hd⟩ := (htold _).2 htakes
      cases hline.symm.trans hd
    · next d hline => exact .inr (.inr ⟨hadmits, hplain, ⟨fun _ => (htold _).1 ⟨d, hline⟩, fun _ => rfl⟩, hfile⟩)

theorem fits_opened {o : Options} {i : Invocation} {c : Console} (h : o.opened i = .ok c) :
    c.Fits o i ∧ (o.toStdout → c.stdout = "") := by
  unfold opened Console.status at h
  split at h
  · cases h
    exact ⟨⟨rfl, rfl⟩, fun _ => rfl⟩
  · next hout =>
    obtain ⟨s, -, rfl⟩ := Console.out_eq_ok_iff.1 h
    exact ⟨⟨rfl, rfl⟩, fun habsurd => absurd habsurd hout⟩

theorem opened_ok_iff {o : Options} (hout : o.toStdout = false) (i : Invocation) :
    (∃ c, o.opened i = .ok c) ↔ i.output.takesAll o.displayName :=
  Console.Fits.status_ok_iff ⟨rfl, rfl⟩ hout "--- Optimizing " o.displayName " ---\n" rfl rfl

theorem outputPath_ne {o : Options} {f : String} (hf : o.script = some f) (hout : Report.named o.output = none)
    (cwd : Path) : (o.outputPath cwd).parts ≠ (cwd.resolve f).parts := by
  rw [outputPath, hout, Option.getD_none, defaultOutput, hf]
  exact Path.resolve_stem_ne cwd (Report.eq_of_named hf).2

/-- What is left of an attempt once the run is closed. -/
theorem close_execute [Text.CharNames] (o : Options) (i : Invocation) (c : Console) (elapsed : String) :
    let ended := (o.execute i c).close elapsed
    let tried := o.attempt i c
    (ended.exit = 0 ↔ tried.2.2 = .ok ()) ∧ ended.store = tried.2.1 ∧
      (tried.1.statusAside → ended.stdout = tried.1.stdout) := by
  dsimp only
  unfold execute
  rcases o.attempt i c with ⟨d, store, result⟩
  cases result with
  | ok u => exact ⟨⟨fun _ => rfl, fun _ => rfl⟩, rfl, fun haside => Console.stdout_plainStatus haside _⟩
  | error t =>
    exact ⟨⟨nofun, nofun⟩, rfl, fun haside => Console.stdout_plainStatus (c := d.err (t.text o.displayName)) haside _⟩

/-- A run that fails when the output file is changed. The script is optimised and the file is open; then the script
cannot be encoded, and the file is left empty, or the path of the file cannot be told, and the file holds the script.
Nothing is changed if that is what the file held before. -/
structure Spoils [Text.CharNames] (o : Options) (i : Invocation) (text : String) : Prop where
  goesOn : o.stop = none
  toFile : o.toStdout = false
  hasInput : o.script.isSome ∨ i.terminal = false
  takesName : i.output.takesAll o.displayName
  yields : o.Yields i text
  admits : i.workspace.store.admits (o.outputPath i.workspace.cwd)
  changes : (∃ s, .lone s ∈ Script.points text) ∧
      i.workspace.store.file? (o.outputPath i.workspace.cwd).parts ≠ some [] ∨
    (∀ s, .lone s ∉ Script.points text) ∧ i.output.takesAll (o.outputPath i.workspace.cwd).text = false ∧
      i.workspace.store.file? (o.outputPath i.workspace.cwd).parts ≠ some (Text.encodeUtf8 text)

/-- A text is all that is printed, and no file is touched; or the output path holds it, and no other file is
touched. -/
def Delivers (o : Options) (i : Invocation) (r : Outcome) (text : String) : Prop :=
  if o.toStdout then r.stdout = text ∧ r.store.file? = i.workspace.store.file?
  else r.store.file? = Function.update i.workspace.store.file? (o.outputPath i.workspace.cwd).parts
    (some (Text.encodeUtf8 text))

end Options

/-- A run that fails has touched no file, and has printed nothing if the script was to be printed. A run that
succeeds, and was asked neither for help nor to stop early, delivers what optimising the script gives. The path
taken by default is not that of the script. -/
structure AllOrNothing [Text.CharNames] (i : Invocation) (r : Outcome) : Prop where
  failed : r.exit ≠ 0 → r.store.file? = i.workspace.store.file? ∧
    ((∀ o, Options.ofArgs i.args = .ok o → o.toStdout) → r.stdout = "")
  delivered : r.exit = 0 → Options.ofArgs i.args ≠ .error .help →
    ∃ o, Options.ofArgs i.args = .ok o ∧ (o.stop = none → ∃ text, o.Yields i text ∧ o.Delivers i r text)
  apart : ∀ o f, Options.ofArgs i.args = .ok o → o.script = some f → Report.named o.output = none →
    (o.outputPath i.workspace.cwd).parts ≠ (i.workspace.cwd.resolve f).parts

namespace AllOrNothing

variable [Text.CharNames] {i : Invocation} {r : Outcome} {o : Options}

theorem of_failed (hexit : r.exit ≠ 0) (hstore : r.store.file? = i.workspace.store.file?)
    (hstdout : (∀ o, Options.ofArgs i.args = .ok o → o.toStdout) → r.stdout = "") : AllOrNothing i r :=
  ⟨fun _ => ⟨hstore, hstdout⟩, fun h => absurd h hexit, fun _ _ _ hf hout => Options.outputPath_ne hf hout _⟩

theorem of_delivered (ho : Options.ofArgs i.args = .ok o) (hexit : r.exit = 0)
    (h : o.stop = none → ∃ text, o.Yields i text ∧ o.Delivers i r text) : AllOrNothing i r :=
  ⟨fun hfailed => absurd hexit hfailed, fun _ _ => ⟨o, ho, h⟩, fun _ _ _ hf hout => Options.outputPath_ne hf hout _⟩

/-- A run that fails once a file is changed is right only if the file held the same before. -/
theorem iff_of_changed (ho : Options.ofArgs i.args = .ok o) (hout : o.toStdout = false) (hexit : r.exit ≠ 0)
    {parts : List String} {bytes : List UInt8}
    (hfile : r.store.file? = Function.update i.workspace.store.file? parts (some bytes)) :
    AllOrNothing i r ↔ i.workspace.store.file? parts = some bytes := by
  have hsame : r.store.file? = i.workspace.store.file? ↔ i.workspace.store.file? parts = some bytes := by
    rw [hfile, Function.update_eq_self_iff, eq_comm]
  rw [← hsame]
  refine ⟨fun h => (h.failed hexit).1, fun h => of_failed hexit h fun habsurd => ?_⟩
  rw [habsurd o ho] at hout
  cases hout

end AllOrNothing

namespace Options

theorem Yields.unique [Text.CharNames] {o : Options} {i : Invocation} {text text' : String} (h : o.Yields i text)
    (h' : o.Yields i text') : text = text' := by
  obtain ⟨content, hread, htext⟩ := h
  obtain ⟨content', hread', htext'⟩ := h'
  cases hread.symm.trans hread'
  exact Except.ok.inj (htext.symm.trans htext')

theorem Yields.forall_not_spoils [Text.CharNames] {o : Options} {i : Invocation} {text : String}
    (h : o.Yields i text) : (∀ text, ¬o.Spoils i text) ↔ ¬o.Spoils i text := by
  refine ⟨fun hnone => hnone text, fun hnot text' hspoils => hnot ?_⟩
  rwa [h.unique hspoils.yields]

/-- A text that is printed is printed as a whole or not at all. -/
theorem allOrNothing_stdout [Text.CharNames] {o : Options} {i : Invocation} {c : Console} {text : String}
    {trail : Trail} (ho : ofArgs i.args = .ok o) (hstop : o.stop = none) (hout : o.toStdout)
    (hyields : o.Yields i text) (hfits : c.Fits o i) (hempty : c.stdout = "") (hquiet : trail.stdout = "")
    (h : o.attempt i c = o.deliver i (o.told c trail) i.workspace.store (.text text)) (elapsed : String) :
    AllOrNothing i ((o.execute i c).close elapsed) := by
  obtain ⟨hended, hstore, hstdout⟩ := o.close_execute i c elapsed
  rw [deliver_stdout hstop hout] at h
  have hnothing : (o.told c trail).stdout = "" := by rw [stdout_told, hempty, hquiet, String.append_empty]
  have haside : (o.told c trail).statusAside := (fits_told hfits trail).statusAside.trans hout
  split at h
  · rw [h] at hended hstore hstdout
    refine .of_failed (fun hexit => nomatch hended.1 hexit) (by rw [hstore]) fun _ => ?_
    rw [hstdout haside, hnothing]
  · next d hd =>
    rw [h] at hended hstore hstdout
    obtain ⟨s, hs, rfl⟩ := Console.out_eq_ok_iff.1 hd
    refine .of_delivered ho (hended.2 rfl) fun _ => ⟨text, hyields, ?_⟩
    obtain ⟨rfl, -⟩ := Script.eq_of_points_eq (Text.Encoding.encode_eq_ok_iff.1 hs).1
    rw [Delivers, if_pos hout, hstdout haside, hstore, hnothing, String.empty_append]
    exact ⟨rfl, rfl⟩

theorem allOrNothing_file_iff [Text.CharNames] {o : Options} {i : Invocation} {c : Console} {text : String}
    {trail : Trail} (ho : ofArgs i.args = .ok o) (hstop : o.stop = none) (hout : o.toStdout = false)
    (hinput : o.script.isSome ∨ i.terminal = false) (hyields : o.Yields i text) (hopened : o.opened i = .ok c)
    (h : o.attempt i c = o.deliver i (o.told c trail) i.workspace.store (.text text)) (elapsed : String) :
    AllOrNothing i ((o.execute i c).close elapsed) ↔ ∀ text, ¬o.Spoils i text := by
  have hname := (opened_ok_iff hout i).1 ⟨c, hopened⟩
  rw [hyields.forall_not_spoils]
  obtain ⟨hended, hstore, -⟩ := o.close_execute i c elapsed
  have hdeliver := deliver_file hstop hout (fits_told (fits_opened hopened).1 trail) i.workspace.store text
  rw [← h] at hdeliver
  obtain ⟨hadmits, hfails, hfile⟩ | ⟨hadmits, hlone, hfails, hfile⟩ | ⟨hadmits, hplain, htold, hfile⟩ := hdeliver
  · -- The file cannot be opened.
    rw [← hstore] at hfile
    refine iff_of_true (.of_failed (mt hended.1 hfails) hfile fun habsurd => ?_) fun hspoils => ?_
    · cases (habsurd o ho).symm.trans hout
    · cases hspoils.admits.symm.trans hadmits
  · -- The file is open when the surrogate is met.
    rw [← hstore] at hfile
    rw [AllOrNothing.iff_of_changed ho hout (mt hended.1 hfails) hfile]
    constructor
    · intro hsame hspoils
      obtain ⟨-, hchanged⟩ | ⟨hplain, -⟩ := hspoils.changes
      · exact hchanged hsame
      · obtain ⟨s, hs⟩ := hlone
        exact hplain s hs
    · intro hnot
      by_contra hchanged
      exact hnot ⟨hstop, hout, hinput, hname, hyields, hadmits, .inl ⟨hlone, hchanged⟩⟩
  · -- The script is written, and the path is still to be told.
    rw [← hstore] at hfile
    have hlast (hspoils : o.Spoils i text) : i.output.takesAll (o.outputPath i.workspace.cwd).text = false ∧
        i.workspace.store.file? (o.outputPath i.workspace.cwd).parts ≠ some (Text.encodeUtf8 text) := by
      obtain ⟨⟨s, hs⟩, -⟩ | ⟨-, hrefused, hchanged⟩ := hspoils.changes
      · exact absurd hs (hplain s)
      · exact ⟨hrefused, hchanged⟩
    cases htakes : i.output.takesAll (o.outputPath i.workspace.cwd).text with
    | true =>
      refine iff_of_true (.of_delivered ho (hended.2 (htold.2 htakes)) fun _ => ⟨text, hyields, ?_⟩) fun hspoils => ?_
      · rw [Delivers, if_neg (by rw [hout]; nofun)]
        exact hfile
      · cases htakes.symm.trans (hlast hspoils).1
    | false =>
      have hfails : (o.attempt i c).2.2 ≠ .ok () := fun hok => nomatch htakes.symm.trans (htold.1 hok)
      rw [AllOrNothing.iff_of_changed ho hout (mt hended.1 hfails) hfile]
      constructor
      · exact fun hsame hspoils => (hlast hspoils).2 hsame
      · intro hnot
        by_contra hchanged
        exact hnot ⟨hstop, hout, hinput, hname, hyields, hadmits, .inr ⟨hplain, htakes, hchanged⟩⟩

theorem allOrNothing_iff [Text.CharNames] (o : Options) {i : Invocation} {c : Console}
    (hcwd : i.workspace.cwd.NullFree) (ho : ofArgs i.args = .ok o) (hinput : o.script.isSome ∨ i.terminal = false)
    (hopened : o.opened i = .ok c) (elapsed : String) :
    AllOrNothing i ((o.execute i c).close elapsed) ↔ ∀ text, ¬o.Spoils i text := by
  obtain ⟨hfits, hempty⟩ := fits_opened hopened
  obtain ⟨hended, hstore, hstdout⟩ := o.close_execute i c elapsed
  obtain ⟨hnone, d, t, hd, hsame, htried⟩ | ⟨hstop, hok⟩ | ⟨text, trail, hstop, hyields, hquiet, htried⟩ :=
    attempt_cases hcwd hfits
  · rw [htried] at hended hstore hstdout
    refine iff_of_true (.of_failed (fun hexit => nomatch hended.1 hexit) (by rw [hstore]) fun hprinted => ?_) ?_
    · have hout := hprinted o ho
      rw [hstdout (hd.statusAside.trans hout), hsame, hempty hout]
    · exact fun text hspoils => hnone hspoils.goesOn text hspoils.yields
  · refine iff_of_true (.of_delivered ho (hended.2 hok) fun hgoes => absurd hgoes hstop) ?_
    exact fun text hspoils => hstop hspoils.goesOn
  · cases hout : o.toStdout with
    | true =>
      refine iff_of_true (allOrNothing_stdout ho hstop hout hyields hfits (hempty hout) hquiet htried elapsed) ?_
      exact fun text hspoils => nomatch hout.symm.trans hspoils.toFile
    | false => exact allOrNothing_file_iff ho hstop hout hinput hyields hopened htried elapsed

end Options

/-- How a run ends: with the help, with a word on how to use the command, with a first line that cannot be printed,
or with an attempt. -/
theorem run_cases [Text.CharNames] (i : Invocation) (elapsed : String) :
    (Options.ofArgs i.args = .error .help ∧ (run i elapsed).exit = 0) ∨
    (∃ e, run i elapsed = misused i e ∧ ∀ o, Options.ofArgs i.args = .ok o → o.script = none ∧ i.terminal) ∨
    (∃ o e, Options.ofArgs i.args = .ok o ∧ o.opened i = .error e ∧ run i elapsed = crashed i e) ∨
    ∃ o c, Options.ofArgs i.args = .ok o ∧ (o.script.isSome ∨ i.terminal = false) ∧ o.opened i = .ok c ∧
      run i elapsed = (o.execute i c).close elapsed := by
  unfold run start
  cases Options.ofArgs i.args with
  | error e =>
    cases e with
    | help => exact .inl ⟨rfl, rfl⟩
    | misuse e => exact .inr (.inl ⟨e, rfl, nofun⟩)
  | ok o =>
    cases hmissing : o.script.isNone && i.terminal with
    | true =>
      simp only [Bool.and_eq_true, Option.isNone_iff_eq_none] at hmissing
      refine .inr (.inl ⟨.inputMissing, by simp [hmissing], fun o' ho' => ?_⟩)
      cases ho'
      exact hmissing
    | false =>
      have hinput : o.script.isSome ∨ i.terminal = false := by
        cases hscript : o.script with
        | none => exact .inr (by simpa [hscript] using hmissing)
        | some f => exact .inl rfl
      cases hopened : o.opened i with
      | error e => exact .inr (.inr (.inl ⟨o, e, rfl, hopened, by simp [hmissing, hopened]⟩))
      | ok c => exact .inr (.inr (.inr ⟨o, c, rfl, hinput, hopened, by simp [hmissing, hopened]⟩))

/-- A run is all or nothing unless it spoils the output file. The name of the working directory is one that can be
looked up. -/
theorem run_all_or_nothing_iff [Text.CharNames] (i : Invocation) (elapsed : String) (hcwd : i.workspace.cwd.NullFree) :
    AllOrNothing i (run i elapsed) ↔ ∀ o text, Options.ofArgs i.args = .ok o → ¬o.Spoils i text := by
  obtain ⟨hhelp, hexit⟩ | ⟨e, hrun, hmissing⟩ | ⟨o, e, ho, hopened, hrun⟩ | ⟨o, c, ho, hinput, hopened, hrun⟩ :=
    run_cases i elapsed
  · refine iff_of_true ⟨fun hfailed => absurd hexit hfailed, fun _ habsurd => absurd hhelp habsurd, ?_⟩ ?_
    · exact fun _ _ _ hf hout => Options.outputPath_ne hf hout _
    · intro o text ho
      cases hhelp.symm.trans ho
  · rw [hrun]
    refine iff_of_true (.of_failed nofun rfl fun _ => rfl) fun o text ho hspoils => ?_
    obtain ⟨hscript, hterminal⟩ := hmissing o ho
    obtain hinput | hinput := hspoils.hasInput
    · rw [hscript] at hinput
      cases hinput
    · cases hterminal.symm.trans hinput
  · rw [hrun]
    refine iff_of_true (.of_failed nofun rfl fun _ => rfl) fun o' text ho' hspoils => ?_
    cases ho.symm.trans ho'
    obtain ⟨c, hc⟩ := (Options.opened_ok_iff hspoils.toFile i).2 hspoils.takesName
    cases hopened.symm.trans hc
  · rw [hrun, o.allOrNothing_iff hcwd ho hinput hopened]
    constructor
    · intro hnot o' text ho'
      cases ho.symm.trans ho'
      exact hnot text
    · exact fun hnot text => hnot o text ho

/-- Of three scripts, `1L + 2L` is written to the path that it takes by default, `(1` is refused before anything is
printed, and the last holds a surrogate, which cannot be written. -/
theorem run_all_or_nothing_scripts :
    let store : Store := ⟨[(["w"], .directory), (["w", "a.R"], .file (Text.encodeUtf8 "1L + 2L")),
      (["w", "b.R"], .file (Text.encodeUtf8 "(1")), (["w", "c.R"], .file (Text.encodeUtf8 "'\\ud800'"))]⟩
    let called (args : List String) : Invocation := { args, workspace := ⟨⟨["w"], false⟩, store⟩ }
    AllOrNothing (called ["a.R"]) (run (called ["a.R"]) "0.1") ∧
    AllOrNothing (called ["b.R", "-o", "-"]) (run (called ["b.R", "-o", "-"]) "0.1") ∧
    ¬AllOrNothing (called ["c.R"]) (run (called ["c.R"]) "0.1") := by
  intro store called
  have hcwd : Path.NullFree ⟨["w"], false⟩ := by decide
  refine ⟨?_, ?_, fun h => ?_⟩
  · refine (run_all_or_nothing_iff (called ["a.R"]) "0.1" hcwd).2 fun o text ho hspoils => ?_
    have hasked : Options.ofArgs ["a.R"] = .ok { input := some "a.R" } := by decide +kernel
    cases hasked.symm.trans ho
    obtain rfl : text = "3L\n" :=
      hspoils.yields.unique ⟨"1L + 2L", by decide +kernel, by decide +kernel⟩
    have hpoints : Script.points "3L\n" = Text.points "3L\n" := by decide +kernel
    obtain ⟨⟨s, hs⟩, -⟩ | ⟨-, hrefused, -⟩ := hspoils.changes
    · exact (Script.eq_of_points_eq hpoints).2 s hs
    · cases (Text.Encoding.takesAll_utf8 _).symm.trans hrefused
  · refine (run_all_or_nothing_iff (called ["b.R", "-o", "-"]) "0.1" hcwd).2 fun o text ho hspoils => ?_
    have hasked : Options.ofArgs ["b.R", "-o", "-"] = .ok { input := some "b.R", output := some "-" } := by
      decide +kernel
    cases hasked.symm.trans ho
    cases hspoils.toFile
  · refine (run_all_or_nothing_iff (called ["c.R"]) "0.1" hcwd).1 h { input := some "c.R" } "\"\\ud800\"\n"
      (by decide +kernel) ?_
    refine ⟨rfl, rfl, .inl rfl, by decide +kernel, ?_, by decide +kernel, .inl ⟨?_, by decide +kernel⟩⟩
    · exact ⟨"'\\ud800'", by decide +kernel, by decide +kernel⟩
    · exact ⟨⟨0xD800, by decide, by decide⟩, by decide +kernel⟩

/-- A script with a surrogate leaves an empty file, and a path that cannot be told leaves the script; both runs fail. -/
theorem run_leaves_file :
    let workspace : Workspace := ⟨⟨["w"], false⟩, ⟨[(["w"], .directory)]⟩⟩
    let escape : Invocation := { args := [], stdin := "x <- \"\\ud800\"", workspace }
    let ascii : Text.Encoding :=
      ⟨"ascii", fun c => c.toNat < 128, "ordinal not in range(128)", fun _ h => decide_eq_true h⟩
    let accent : Invocation := { args := ["-o", "é.R"], stdin := "x", workspace, output := ascii }
    (run escape "0.1").exit = 1 ∧ workspace.store.file? ["w", "stdin.opt.R"] = none ∧
      (run escape "0.1").store.file? ["w", "stdin.opt.R"] = some [] ∧
    (run accent "0.1").exit = 1 ∧ workspace.store.file? ["w", "é.R"] = none ∧
      (run accent "0.1").store.file? ["w", "é.R"] = some (Text.encodeUtf8 "x\n") := by
  decide +kernel

end Command
end Deadwood
