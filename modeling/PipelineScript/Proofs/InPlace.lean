import PipelineScript.Command.Format
import PipelineScript.Proofs.Files
import PipelineScript.Proofs.Fuel

/-!
Formatting files in place stops cleanly at the first failure.

The run is watched through a storage that notes what it is asked. Each file is a step of its own:
it succeeds, and only the file and its backup change, or it does not, and the files are as they
were. A script that is not parsed fails the step, aborts the run or keeps it from ending, as its
tokens come to an end or not.
-/
namespace PipelineScript

section

variable {engine : PatternEngine}

/-! ### Runs and what they ask of the storage -/

/-- What a storage is asked. -/
inductive Request where
  | read (path : String)
  | create (path : String)
  | fill (text : String)
  | keep (path : String)
  | persist (path : String)
  | discard
deriving DecidableEq, Repr

/-- A step that is noted before it is taken. -/
def note {m : Type → Type} [Monad m] {α : Type} (request : Request) (step : m α) :
    StateT (List Request) m α := do
  modify (· ++ [request])
  StateT.lift step

/-- A storage that notes what it is asked. -/
def Storage.noted {m : Type → Type} [Monad m] {Draft : Type} (storage : Storage m Draft) :
    Storage (StateT (List Request) m) Draft where
  read path := note (.read path) (storage.read path)
  create path := note (.create path) (storage.create path)
  fill draft text := note (.fill text) (storage.fill draft text)
  keep path := note (.keep path) (storage.keep path)
  persist draft path := note (.persist path) (storage.persist draft path)
  discard draft := note .discard (storage.discard draft)

/-- Steps that use files, beside a state that the files do not depend on. -/
abbrev Session (σ : Type) := StateT Files (StateM σ)

/-- The same steps, noted. -/
abbrev NotedSession (σ : Type) := StateT (List Request) (Session σ)

/-- One run from some files and a state: its result, what it asks, and what it leaves, the same
whether or not the requests are noted. -/
structure Runs {σ α : Type} (step : Session σ α) (noted : NotedSession σ α) (files : Files)
    (state : σ) (result : α) (asked : List Request) (files' : Files) (state' : σ) : Prop where
  plain : (step.run files).run state = ((result, files'), state')
  noted : ∀ before, ((noted.run before).run files).run state =
    (((result, before ++ asked), files'), state')

section Runs

variable {σ α β : Type} {files files' files'' : Files} {state state' state'' : σ}
variable {asked asked' : List Request}

theorem runs_pure (a : α) (files : Files) (state : σ) :
    Runs (pure a) (pure a) files state a [] files state :=
  ⟨rfl, fun before => by simp; rfl⟩

theorem Runs.bind {step : Session σ α} {noted : NotedSession σ α} {next : α → Session σ β}
    {next' : α → NotedSession σ β} {a : α} {b : β}
    (h : Runs step noted files state a asked files' state')
    (hn : Runs (next a) (next' a) files' state' b asked' files'' state'') :
    Runs (step >>= next) (noted >>= next') files state b (asked ++ asked') files'' state'' where
  plain := by
    rw [StateT.run_bind, StateT.run_bind, h.plain]
    exact hn.plain
  noted before := by
    rw [StateT.run_bind, StateT.run_bind, StateT.run_bind, h.noted before, ← List.append_assoc]
    exact hn.noted (before ++ asked)

theorem Runs.map {step : Session σ α} {noted : NotedSession σ α} {a : α}
    (h : Runs step noted files state a asked files' state') (f : α → β) :
    Runs (do return f (← step)) (do return f (← noted)) files state (f a) asked files' state' := by
  rw [← List.append_nil asked]
  exact h.bind (runs_pure (f a) files' state')

theorem runs_note {step : Session σ α} {a : α} (request : Request)
    (h : (step.run files).run state = ((a, files'), state')) :
    Runs step (note request step) files state a [request] files' state' where
  plain := h
  noted before := by
    simp only [note, StateT.run_bind, StateT.run_modify, pure_bind, StateT.run_lift, h]
    rfl

/-! ### Steps that may fail -/

variable {step : ExceptT CommandStop (Session σ) α}
variable {noted : ExceptT CommandStop (NotedSession σ) α}

theorem runs_known {outcome result : Except CommandStop α} (h : outcome = result)
    (files : Files) (state : σ) :
    Runs (ExceptT.run (m := Session σ) (ExceptT.mk (pure outcome)))
      (ExceptT.run (m := NotedSession σ) (ExceptT.mk (pure outcome))) files state result [] files
      state :=
  h ▸ runs_pure outcome files state

theorem Runs.bind_ok {next : α → ExceptT CommandStop (Session σ) β}
    {next' : α → ExceptT CommandStop (NotedSession σ) β} {a : α} {result : Except CommandStop β}
    (h : Runs step.run noted.run files state (.ok a) asked files' state')
    (hn : Runs (next a).run (next' a).run files' state' result asked' files'' state'') :
    Runs (step >>= next).run (noted >>= next').run files state result (asked ++ asked')
      files'' state'' := by
  rw [ExceptT.run_bind, ExceptT.run_bind]
  exact h.bind hn

theorem Runs.bind_error {e : CommandStop}
    (h : Runs step.run noted.run files state (.error e) asked files' state')
    (next : α → ExceptT CommandStop (Session σ) β)
    (next' : α → ExceptT CommandStop (NotedSession σ) β) :
    Runs (step >>= next).run (noted >>= next').run files state (.error e) asked
      files' state' := by
  rw [ExceptT.run_bind, ExceptT.run_bind, ← List.append_nil asked]
  exact h.bind (runs_pure _ _ _)

namespace FormatOptions

theorem runs_fileStep {step : Session σ (Except FileError α)}
    {noted : NotedSession σ (Except FileError α)} {result : Except FileError α}
    (h : Runs step noted files state result asked files' state') :
    Runs (fileStep step).run (fileStep noted).run files state
      (result.mapError fun error => .failed (.file error)) asked files' state' :=
  h.map _

theorem runs_inFile (path : String) {result : Except CommandStop α}
    (h : Runs step.run noted.run files state result asked files' state') :
    Runs (inFile path step).run (inFile path noted).run files state
      (result.mapError (.inFile path)) asked files' state' :=
  h.map _

variable {tried : Session σ (Except FileError Unit)}
variable {tried' : NotedSession σ (Except FileError Unit)}

theorem runs_draftStep_ok (draft : List String)
    (h : Runs tried tried' files state (.ok ()) asked files' state') :
    Runs (draftStep Files.storage draft tried).run
      (draftStep Files.storage.noted draft tried').run files state (.ok ()) asked
      files' state' := by
  change Runs _ _ files state
    (Except.mapError (fun error => CommandStop.failed (.file error)) (Except.ok ())) asked files'
    state'
  refine runs_fileStep ?_
  rw [← List.append_nil asked]
  exact h.bind (runs_pure _ _ _)

/-- A step that fails takes the draft with it. -/
theorem runs_draftStep_error (draft : List String) {e : FileError}
    (h : Runs tried tried' files state (.error e) asked files' state') :
    Runs (draftStep Files.storage draft tried).run
      (draftStep Files.storage.noted draft tried').run files state (.error (.failed (.file e)))
      (asked ++ [.discard]) (files'.erase draft) state' := by
  have hd : Runs (Files.storage.discard draft) (Files.storage.noted.discard draft) files' state'
      () [.discard] (files'.erase draft) state' := runs_note .discard rfl
  change Runs _ _ files state
    (Except.mapError (fun error => CommandStop.failed (.file error)) (Except.error e)) _ _ state'
  refine runs_fileStep (h.bind ?_)
  rw [← List.append_nil [Request.discard]]
  exact hd.bind (runs_pure _ _ _)

end FormatOptions

/-! ### What is asked of the files -/

theorem runs_read (path : String) (files : Files) (state : σ) :
    Runs (Files.storage.read path) (Files.storage.noted.read path) files state
      (files.read path) [.read path] files state :=
  runs_note (.read path) rfl

theorem runs_attempt_ok (request : Request) {change : Files → Except FileError (α × Files)}
    {a : α} (h : change files = .ok (a, files')) (state : σ) :
    Runs (Files.attempt change) (note request (Files.attempt change)) files state (.ok a)
      [request] files' state := by
  refine runs_note request ?_
  simp only [Files.attempt, StateT.run_bind, StateT.run_get, pure_bind, h]
  rfl

theorem runs_attempt_error (request : Request) {change : Files → Except FileError (α × Files)}
    {e : FileError} (h : change files = .error e) (state : σ) :
    Runs (Files.attempt change) (note request (Files.attempt change)) files state (.error e)
      [request] files state := by
  refine runs_note request ?_
  simp only [Files.attempt, StateT.run_bind, StateT.run_get, pure_bind, h]
  rfl

end Runs

namespace FormatOptions

variable {σ : Type} {options : FormatOptions} {files files' : Files}

/-- What is asked to put a text in the place of a file. -/
def replacing (options : FormatOptions) (path text : String) : List Request :=
  [.create path, .fill text] ++ (if options.backup then [.keep path] else []) ++ [.persist path]

/-- The files after a text took the place of one: the text is there, with a backup the old content
is beside it, and the rest is as before. -/
def Replaces (options : FormatOptions) (target backup : List String) (text : String)
    (files files' : Files) : Prop :=
  ∀ path, files'.get? path =
    if path = target then some text.toUTF8
    else if options.backup ∧ path = backup then files.get? target
    else files.get? path

/-- A file is parsed and its tree is written as a text: in canonical form, or as JSON with a newline
at the end. -/
inductive Renders [PatternEngine] (options : FormatOptions) (path : String) (files : Files) :
    String → Prop
  | canonical {source : String} {tree : Node} (read : files.read path = .ok source)
      (parses : parse source = .ok tree) (json : options.json = false) :
      Renders options path files tree.render
  | json {source : String} {tree : Node} (read : files.read path = .ok source)
      (parses : parse source = .ok tree) (json : options.json = true) :
      Renders options path files ((Json.marshal tree).prettyText ++ "\n")

/-- A file is formatted. -/
inductive Formats [PatternEngine] (options : FormatOptions) (path : String) (files : Files) :
    FormatResult → List Request → Files → Prop
  | shown {text : String} (renders : options.Renders path files text)
      (write : options.write = false) :
      Formats options path files (.output text) [.read path] files
  | replaced {text : String} {target backup : List String} {files' : Files}
      (renders : options.Renders path files text) (write : options.write = true)
      (leads : files.resolve path = .ok target)
      (leadsBackup : files.resolve (path ++ backupSuffix) = .ok backup) (apart : target ≠ backup)
      (replaces : options.Replaces target backup text files files') :
      Formats options path files (.written path) (.read path :: options.replacing path text) files'

/-- A file is not formatted. -/
inductive Fails [PatternEngine] (options : FormatOptions) (path : String) (files : Files) :
    CommandStop → List Request → Prop
  | unread {e : FileError} (read : files.read path = .error e) :
      Fails options path files (.failed (.file e)) [.read path]
  | unparsed {source : String} {e : ParseError} (read : files.read path = .ok source)
      (parses : parse source = .error (.rejected e)) :
      Fails options path files (.failed (.parse e)) [.read path]
  /-- The parser comes to where the scanner is lost. -/
  | aborted {source : String} (read : files.read path = .ok source)
      (lost : (tokenize source).ending = .lost)
      (parses : parse source = .error (.interrupted .lost)) :
      Fails options path files .aborted [.read path]
  /-- The parser comes to where the scanner stands still, and does not come to an end. -/
  | unending {source : String} (read : files.read path = .ok source)
      (endless : (tokenize source).ending = .endless)
      (parses : parse source = .error (.interrupted .endless)) :
      Fails options path files .unending [.read path]
  /-- A directory has the name of the backup. -/
  | unkept {text : String} {backup : List String} (renders : options.Renders path files text)
      (write : options.write = true) (keeps : options.backup = true)
      (leadsBackup : files.resolve (path ++ backupSuffix) = .ok backup)
      (isDirectory : files.isDirectory backup) :
      Fails options path files (.failed (.file .isADirectory))
        [.read path, .create path, .fill text, .keep path, .discard]

section Replace

variable {directory : List String} {name path text : String} {old : ByteArray}

/-- A draft beside a file leaves the path of the file as it was. -/
theorem leads_draft (h : files.Leads path directory name) (content : ByteArray) :
    (files.insert (files.draftIn directory) content).Leads path directory name :=
  h.of_isDirectory_eq (Files.directory_insert ..)
    (Files.isDirectory_insert_beside h.isDirectory content)

theorem get?_beside_draft (hg : files.get? (directory ++ [name]) = some old)
    (content : ByteArray) :
    (files.insert (files.draftIn directory) content).get? (directory ++ [name]) = some old := by
  rw [Files.get?_insert, if_neg (Files.ne_draftIn hg directory), hg]

theorem runs_create (h : files.Leads path directory name) (state : σ) :
    Runs (Files.storage.create path) (Files.storage.noted.create path) files state
      (.ok (files.draftIn directory)) [.create path]
      (files.insert (files.draftIn directory) ByteArray.empty) state :=
  runs_attempt_ok (.create path) h.create_eq state

theorem runs_fill (draft : List String) (content : ByteArray) (text : String) (state : σ) :
    Runs (Files.storage.fill draft text) (Files.storage.noted.fill draft text)
      (files.insert draft content) state (.ok ()) [.fill text]
      (files.insert draft text.toUTF8) state := by
  rw [← Files.insert_insert files draft content text.toUTF8]
  exact runs_note (.fill text) rfl

theorem runs_keep_ok (h : files.Leads path directory name)
    (hg : files.get? (directory ++ [name]) = some old)
    (hb : files.isDirectory (directory ++ [name ++ backupSuffix]) = false) (state : σ) :
    Runs (Files.storage.keep path) (Files.storage.noted.keep path) files state
      (.ok ()) [.keep path]
      (files.move (directory ++ [name]) (directory ++ [name ++ backupSuffix])) state := by
  refine runs_attempt_ok (.keep path) ?_ state
  rw [h.keep_eq hg, hb]
  rfl

theorem runs_keep_error (h : files.Leads path directory name)
    (hg : files.get? (directory ++ [name]) = some old)
    (hb : files.isDirectory (directory ++ [name ++ backupSuffix]) = true) (state : σ) :
    Runs (Files.storage.keep path) (Files.storage.noted.keep path) files state
      (.error .isADirectory) [.keep path] files state := by
  refine runs_attempt_error (.keep path) ?_ state
  rw [h.keep_eq hg, hb]
  rfl

theorem runs_persist (h : files.Leads path directory name) (draft : List String) (state : σ) :
    Runs (Files.storage.persist draft path) (Files.storage.noted.persist draft path) files state
      (.ok ()) [.persist path] (files.move draft (directory ++ [name])) state := by
  refine runs_attempt_ok (.persist path) ?_ state
  rw [h.persist_eq]
  rfl

/-- The draft takes the place of the file. -/
theorem runs_replaceFile (hb : options.backup = false) (h : files.Leads path directory name)
    (text : String) (state : σ) :
    Runs (options.replaceFile Files.storage path text).run
      (options.replaceFile Files.storage.noted path text).run files state (.ok ())
      (options.replacing path text)
      ((files.insert (files.draftIn directory) text.toUTF8).move (files.draftIn directory)
        (directory ++ [name])) state := by
  simp only [replaceFile, hb, Bool.false_eq_true, if_false, replacing]
  refine (runs_fileStep (runs_create h state)).bind_ok ?_
  refine (runs_draftStep_ok _ (runs_fill _ _ text state)).bind_ok ?_
  exact runs_draftStep_ok _ (runs_persist (leads_draft h _) _ state)

/-- With a backup, the file is moved out of the way first. -/
theorem runs_replaceFile_backup (hb : options.backup = true) (h : files.Leads path directory name)
    (hg : files.get? (directory ++ [name]) = some old)
    (hd : files.isDirectory (directory ++ [name ++ backupSuffix]) = false) (text : String)
    (state : σ) :
    Runs (options.replaceFile Files.storage path text).run
      (options.replaceFile Files.storage.noted path text).run files state (.ok ())
      (options.replacing path text)
      (((files.insert (files.draftIn directory) text.toUTF8).move (directory ++ [name])
        (directory ++ [name ++ backupSuffix])).move (files.draftIn directory)
        (directory ++ [name])) state := by
  have hl := leads_draft h text.toUTF8
  have hk := get?_beside_draft hg text.toUTF8
  have hd' : (files.insert (files.draftIn directory) text.toUTF8).isDirectory
      (directory ++ [name ++ backupSuffix]) = false :=
    (Files.isDirectory_insert_beside h.isDirectory _ _).trans hd
  simp only [replaceFile, hb, if_true, replacing]
  refine (runs_fileStep (runs_create h state)).bind_ok ?_
  refine (runs_draftStep_ok _ (runs_fill _ _ text state)).bind_ok ?_
  refine (runs_draftStep_ok _ (runs_keep_ok hl hk hd' state)).bind_ok ?_
  exact runs_draftStep_ok _ (runs_persist
    (hl.of_isDirectory_eq (Files.directory_move ..) (Files.isDirectory_move_beside hk)) _ state)

/-- A directory is in the way of the backup: the draft is removed, and nothing has changed. -/
theorem runs_replaceFile_unkept (hb : options.backup = true) (h : files.Leads path directory name)
    (hg : files.get? (directory ++ [name]) = some old)
    (hd : files.isDirectory (directory ++ [name ++ backupSuffix]) = true) (text : String)
    (state : σ) :
    Runs (options.replaceFile Files.storage path text).run
      (options.replaceFile Files.storage.noted path text).run files state
      (.error (.failed (.file .isADirectory))) [.create path, .fill text, .keep path, .discard]
      files state := by
  have hd' : (files.insert (files.draftIn directory) text.toUTF8).isDirectory
      (directory ++ [name ++ backupSuffix]) = true :=
    (Files.isDirectory_insert_beside h.isDirectory _ _).trans hd
  have hk := runs_keep_error (leads_draft h _) (get?_beside_draft hg text.toUTF8) hd' state
  have hdiscard := runs_draftStep_error (files.draftIn directory) hk
  rw [Files.erase_insert_draftIn] at hdiscard
  simp only [replaceFile, hb, if_true]
  refine (runs_fileStep (runs_create h state)).bind_ok ?_
  refine (runs_draftStep_ok _ (runs_fill _ _ text state)).bind_ok ?_
  exact hdiscard.bind_error _ _

end Replace

/-! ### One file -/

section Format

variable {path source text : String}

theorem runs_unread {e : FileError} (h : files.read path = .error e) (state : σ) :
    Runs (options.formatFile Files.storage path).run
      (options.formatFile Files.storage.noted path).run files state
      (.error (.failed (.file e))) [.read path] files state := by
  have hr := runs_fileStep (runs_read path files state)
  rw [h] at hr
  exact hr.bind_error _ _

theorem runs_unparsed {stop : CommandStop} (h : files.read path = .ok source)
    (hf : formatSource source options.json = .error stop) (state : σ) :
    Runs (options.formatFile Files.storage path).run
      (options.formatFile Files.storage.noted path).run files state (.error stop)
      [.read path] files state := by
  have hr := runs_fileStep (runs_read path files state)
  rw [h] at hr
  exact hr.bind_ok ((runs_known hf files state).bind_error _ _)

theorem formatSource_of_error {f : ParseFailure} (h : parse source = .error f) (json : Bool) :
    formatSource source json = .error (.ofParse f) := by
  unfold formatSource
  rw [h]

theorem formatSource_of_ok {tree : Node} (h : parse source = .ok tree) (json : Bool) :
    formatSource source json =
      .ok (if json then (Json.marshal tree).prettyText ++ "\n" else tree.render) := by
  unfold formatSource
  rw [h]

/-- A script that is not parsed. -/
theorem exists_fails {f : ParseFailure} (hr : files.read path = .ok source)
    (hf : parse source = .error f) : ∃ stop, options.Fails path files stop [.read path] ∧
      formatSource source options.json = .error stop := by
  refine ⟨_, ?_, formatSource_of_error hf options.json⟩
  rcases ParserCall.program.runOn_cases source with ⟨n, hn⟩ | ⟨e, he⟩ | ⟨hending, hstops⟩
  · rw [parse] at hf
    cases hf.symm.trans hn
  · cases hf.symm.trans he
    exact .unparsed hr hf
  · cases hf.symm.trans hstops
    cases hl : (tokenize source).ending with
    | ended => exact absurd hl hending
    | lost => exact .aborted hr hl (hl ▸ hf)
    | endless => exact .unending hr hl (hl ▸ hf)

/-- A script that is parsed. -/
theorem exists_renders {tree : Node} (hr : files.read path = .ok source)
    (hp : parse source = .ok tree) : ∃ text, options.Renders path files text ∧
      formatSource source options.json = .ok text := by
  refine ⟨_, ?_, formatSource_of_ok hp options.json⟩
  cases hj : options.json with
  | false => exact .canonical hr hp hj
  | true => exact .json hr hp hj

/-- A text that is there is delivered. -/
theorem runs_parsed {result : Except CommandStop FormatResult} {asked : List Request} {state : σ}
    (h : files.read path = .ok source) (hf : formatSource source options.json = .ok text)
    (hd : Runs (options.deliver Files.storage path text).run
      (options.deliver Files.storage.noted path text).run files state result asked files' state) :
    Runs (options.formatFile Files.storage path).run
      (options.formatFile Files.storage.noted path).run files state result (.read path :: asked)
      files' state := by
  have hr := runs_fileStep (runs_read path files state)
  rw [h] at hr
  exact hr.bind_ok ((runs_known hf files state).bind_ok hd)

theorem runs_deliver_output (hw : options.write = false) (path text : String) (files : Files)
    (state : σ) :
    Runs (options.deliver Files.storage path text).run
      (options.deliver Files.storage.noted path text).run files state (.ok (.output text)) []
      files state := by
  simp only [deliver, hw]
  exact runs_pure _ _ _

theorem runs_deliver_written (hw : options.write = true) {asked : List Request} {state : σ}
    (h : Runs (options.replaceFile Files.storage path text).run
      (options.replaceFile Files.storage.noted path text).run files state (.ok ()) asked files'
      state) :
    Runs (options.deliver Files.storage path text).run
      (options.deliver Files.storage.noted path text).run files state (.ok (.written path)) asked
      files' state := by
  simp only [deliver, hw]
  rw [← List.append_nil asked]
  exact h.bind_ok (runs_pure _ _ _)

theorem runs_deliver_error (hw : options.write = true) {e : CommandStop} {asked : List Request}
    {state : σ}
    (h : Runs (options.replaceFile Files.storage path text).run
      (options.replaceFile Files.storage.noted path text).run files state (.error e) asked files'
      state) :
    Runs (options.deliver Files.storage path text).run
      (options.deliver Files.storage.noted path text).run files state (.error e) asked files'
      state := by
  simp only [deliver, hw]
  exact h.bind_error _ _

/-- A file is formatted, or it is not and the files are as they were. -/
theorem runs_formatFile (options : FormatOptions) (path : String) (files : Files) (state : σ) :
    (∃ result asked files', options.Formats path files result asked files' ∧
      Runs (options.formatFile Files.storage path).run
        (options.formatFile Files.storage.noted path).run files state (.ok result) asked files'
        state) ∨
    ∃ e asked, options.Fails path files e asked ∧
      Runs (options.formatFile Files.storage path).run
        (options.formatFile Files.storage.noted path).run files state (.error e) asked files
        state := by
  cases hr : files.read path with
  | error e => exact .inr ⟨_, _, .unread hr, runs_unread hr state⟩
  | ok source =>
  cases hp : parse source with
  | error f =>
    obtain ⟨stop, hfails, hf⟩ := exists_fails hr hp
    exact .inr ⟨stop, _, hfails, runs_unparsed hr hf state⟩
  | ok tree =>
  obtain ⟨text, hrenders, hf⟩ := exists_renders hr hp
  cases hw : options.write with
  | false =>
    exact .inl ⟨_, _, _, .shown hrenders hw,
      runs_parsed hr hf (runs_deliver_output hw path text files state)⟩
  | true =>
  obtain ⟨directory, name, old, hl, hg, -⟩ := Files.leads_of_read hr
  have hne : directory ++ [name] ≠ directory ++ [name ++ backupSuffix] := by
    simp only [ne_eq, List.append_cancel_left_eq, List.cons.injEq, and_true]
    exact Files.ne_append_backupSuffix name
  cases hb : options.backup with
  | false =>
    refine .inl ⟨_, _, _, .replaced hrenders hw hl.resolves hl.resolvesBackup hne fun other => ?_,
      runs_parsed hr hf (runs_deliver_written hw (runs_replaceFile hb hl text state))⟩
    simp [Files.get?_replaced, hb]
  | true =>
  cases hd : files.isDirectory (directory ++ [name ++ backupSuffix]) with
  | false =>
    refine .inl ⟨_, _, _, .replaced hrenders hw hl.resolves hl.resolvesBackup hne fun other => ?_,
      runs_parsed hr hf (runs_deliver_written hw (runs_replaceFile_backup hb hl hg hd text state))⟩
    simp [Files.get?_replaced_backup hg, hb, hg]
  | true =>
    exact .inr ⟨_, _, .unkept hrenders hw hb hl.resolvesBackup hd,
      runs_parsed hr hf (runs_deliver_error hw (runs_replaceFile_unkept hb hl hg hd text state))⟩

end Format

/-! ### All files -/

/-- Hands a result to a reporter that has a state of its own and may fail. -/
def handTo {m : Type → Type} [MonadLiftT (StateM σ) m]
    (onResult : FormatResult → ExceptT CommandStop (StateM σ) Unit) (result : FormatResult) :
    ExceptT CommandStop m Unit :=
  ExceptT.mk (monadLift (onResult result).run)

/-- Files are formatted one after the other, and each result is taken: from the files and the
state of the reporter to those that are left, with everything that is asked. -/
inductive Processes [PatternEngine] (options : FormatOptions)
    (onResult : FormatResult → ExceptT CommandStop (StateM σ) Unit) :
    List String → Files → σ → List Request → Files → σ → Prop
  | done (files : Files) (state : σ) : Processes options onResult [] files state [] files state
  | step {path : String} {paths : List String} {files files' files'' : Files}
      {state state' state'' : σ} {result : FormatResult} {asked asked' : List Request}
      (formats : options.Formats path files result asked files')
      (takes : (onResult result).run.run state = (.ok (), state'))
      (processes : Processes options onResult paths files' state' asked' files'' state'') :
      Processes options onResult (path :: paths) files state (asked ++ asked') files'' state''

/-- How a run ends in front of the paths that are left: none is left, the next file is not formatted
and nothing more happens, or its result is not taken. A failure names the file; an abort does not,
and neither does a run that does not end. -/
inductive Ends [PatternEngine] (options : FormatOptions)
    (onResult : FormatResult → ExceptT CommandStop (StateM σ) Unit) :
    List String → Files → σ → Except CommandStop Unit → List Request → Files → σ → Prop
  | finished (files : Files) (state : σ) :
      Ends options onResult [] files state (.ok ()) [] files state
  | failed {path : String} (later : List String) {files : Files} (state : σ) {stop : CommandStop}
      {asked : List Request} (fails : options.Fails path files stop asked) :
      Ends options onResult (path :: later) files state (.error (.inFile path stop)) asked files
        state
  | refused {path : String} (later : List String) {files files' : Files} {state state' : σ}
      {result : FormatResult} {asked : List Request} {e : CommandStop}
      (formats : options.Formats path files result asked files')
      (refuses : (onResult result).run.run state = (.error e, state')) :
      Ends options onResult (path :: later) files state (.error e) asked files' state'

theorem runs_handTo {onResult : FormatResult → ExceptT CommandStop (StateM σ) Unit}
    {result : FormatResult} {state state' : σ} {outcome : Except CommandStop Unit}
    (h : (onResult result).run.run state = (outcome, state')) (files : Files) :
    Runs (handTo (m := Session σ) onResult result).run
      (handTo (m := NotedSession σ) onResult result).run files state outcome [] files state' where
  plain := by
    change ((StateT.lift (onResult result).run : Session σ _).run files).run state = _
    rw [StateT.run_lift, StateT.run_bind, h]
    rfl
  noted before := by
    change (((StateT.lift (StateT.lift (onResult result).run : Session σ _) :
      NotedSession σ _).run before).run files).run state = _
    rw [StateT.run_lift, StateT.run_bind, StateT.run_lift, StateT.run_bind, StateT.run_bind, h,
      List.append_nil]
    rfl

/-- One after the other, until the paths are used up or the first one stops the run. -/
theorem runs_formatEach (options : FormatOptions)
    (onResult : FormatResult → ExceptT CommandStop (StateM σ) Unit) (paths : List String)
    (files : Files) (state : σ) :
    ∃ done rest asked files₁ state₁ outcome asked' files₂ state₂,
      paths = done ++ rest ∧ options.Processes onResult done files state asked files₁ state₁ ∧
      options.Ends onResult rest files₁ state₁ outcome asked' files₂ state₂ ∧
      Runs (options.formatEach Files.storage (handTo onResult) paths).run
        (options.formatEach Files.storage.noted (handTo onResult) paths).run files state outcome
        (asked ++ asked') files₂ state₂ := by
  induction paths generalizing files state with
  | nil =>
    exact ⟨[], [], _, _, _, _, _, _, _, rfl, .done files state, .finished files state,
      runs_pure _ _ _⟩
  | cons path paths ih =>
    rcases runs_formatFile options path files state with
      ⟨result, asked, files₁, hf, hr⟩ | ⟨e, asked, hf, hr⟩
    · obtain ⟨outcome, state₁, ht⟩ : ∃ outcome state₁,
          (onResult result).run.run state = (outcome, state₁) := ⟨_, _, rfl⟩
      have hh := runs_handTo ht files₁
      cases outcome with
      | error e =>
        refine ⟨[], path :: paths, _, _, _, _, _, _, _, rfl, .done files state,
          .refused paths hf ht, ?_⟩
        rw [List.nil_append, ← List.append_nil asked]
        exact (runs_inFile path hr).bind_ok (hh.bind_error _ _)
      | ok =>
        obtain ⟨done, rest, asked', files₂, state₂, outcome, asked'', files₃, state₃, rfl, hp, he,
          hs⟩ := ih files₁ state₁
        refine ⟨path :: done, rest, _, _, _, _, _, _, _, rfl, .step hf ht hp, he, ?_⟩
        rw [List.append_assoc]
        exact (runs_inFile path hr).bind_ok (hh.bind_ok hs)
    · exact ⟨[], path :: paths, _, _, _, _, _, _, _, rfl, .done files state,
        .failed paths state hf, (runs_inFile path hr).bind_error _ _⟩

theorem Formats.files_eq {path : String} {result : FormatResult} {asked : List Request}
    (h : options.Formats path files result asked files') (hw : options.write = false) :
    files' = files := by
  cases h with
  | shown => rfl
  | replaced _ write => simp [hw] at write

theorem Processes.files_eq {onResult : FormatResult → ExceptT CommandStop (StateM σ) Unit}
    {paths : List String} {state state' : σ} {asked : List Request}
    (h : options.Processes onResult paths files state asked files' state')
    (hw : options.write = false) : files' = files := by
  induction h with
  | done => rfl
  | step formats _ _ ih => rw [ih, formats.files_eq hw]

theorem Ends.files_eq {onResult : FormatResult → ExceptT CommandStop (StateM σ) Unit}
    {rest : List String} {state state' : σ} {outcome : Except CommandStop Unit}
    {asked : List Request} (h : options.Ends onResult rest files state outcome asked files' state')
    (hw : options.write = false) : files' = files := by
  cases h with
  | finished => rfl
  | failed => rfl
  | refused _ formats => exact formats.files_eq hw

/-- The command formats the longest beginning of its paths that goes well, one path after the
other, and stops at the first that does not: nothing later is asked of the files or reported. -/
theorem execute_runs (options : FormatOptions)
    (onResult : FormatResult → ExceptT CommandStop (StateM σ) Unit) (files : Files) (state : σ) :
    if options.paths = [] ∧ options.write = true then
      Runs (options.execute Files.storage (handTo onResult)).run
        (options.execute Files.storage.noted (handTo onResult)).run files state
        (.error (.failed .noFiles)) [] files state
    else
      ∃ done rest asked files₁ state₁ outcome asked' files₂ state₂,
        options.paths = done ++ rest ∧
        options.Processes onResult done files state asked files₁ state₁ ∧
        options.Ends onResult rest files₁ state₁ outcome asked' files₂ state₂ ∧
        Runs (options.execute Files.storage (handTo onResult)).run
          (options.execute Files.storage.noted (handTo onResult)).run files state outcome
          (asked ++ asked') files₂ state₂ ∧
        (options.write = false → files₂ = files) := by
  split
  next hnone =>
    simp only [execute, List.isEmpty_iff, hnone, and_self, if_true]
    exact runs_pure _ _ _
  next hsome =>
    obtain ⟨done, rest, asked, files₁, state₁, outcome, asked', files₂, state₂, hpaths, hp, he,
      hr⟩ := runs_formatEach options onResult options.paths files state
    refine ⟨done, rest, asked, files₁, state₁, outcome, asked', files₂, state₂, hpaths, hp, he,
      ?_, fun hw => by rw [he.files_eq hw, hp.files_eq hw]⟩
    simp only [execute, List.isEmpty_iff, hsome, if_false]
    exact hr

/-- A reporter that collects the results. -/
def collect (result : FormatResult) : ExceptT CommandStop (StateM (List FormatResult)) Unit :=
  modify (· ++ [result])

end FormatOptions

end

namespace FormatOptions

open scoped PatternEngine

/-- A file is formatted and kept, one that is named from the root is rejected, and a third one is
not touched. -/
theorem execute_runs_collect :
    let options : FormatOptions :=
      ⟨["good.tick", "/data/bad.tick", "never.tick"], true, true, false⟩
    let files := ((Files.empty ["home"]).insert ["home", "good.tick"] "var x=1".toUTF8
      |>.insert ["data", "bad.tick"] "var = 2".toUTF8
      |>.insert ["home", "never.tick"] "var y=2".toUTF8)
    ∃ done rest asked files₁ reported outcome asked' files₂ reported',
      options.paths = done ++ rest ∧
      options.Processes collect done files [] asked files₁ reported ∧
      options.Ends collect rest files₁ reported outcome asked' files₂ reported' ∧
      Runs (options.execute Files.storage (handTo collect)).run
        (options.execute Files.storage.noted (handTo collect)).run files [] outcome
        (asked ++ asked') files₂ reported' ∧
      reported' = [.written "good.tick"] ∧
      asked ++ asked' = .read "good.tick" :: options.replacing "good.tick" "var x = 1\n" ++
        [.read "/data/bad.tick"] ∧
      outcome = .error (.failed (.inFile "/data/bad.tick"
        (.parse ⟨.unexpected "=" [.ident], ⟨4, 1, 5⟩, "var = 2"⟩))) ∧
      files₂.get? ["home", "good.tick"] = some "var x = 1\n".toUTF8 ∧
      files₂.get? ["home", "good.tick.orig"] = some "var x=1".toUTF8 ∧
      files₂.get? ["data", "bad.tick"] = some "var = 2".toUTF8 ∧
      files₂.get? ["home", "never.tick"] = some "var y=2".toUTF8 := by
  intro options files
  obtain ⟨done, rest, asked, files₁, reported, outcome, asked', files₂, reported', hpaths, hp, he,
    hr, -⟩ := execute_runs options collect files []
  let noted : NotedSession (List FormatResult) (Except CommandStop Unit) :=
    (options.execute Files.storage.noted (handTo collect)).run
  have hnoted : ((noted.run []).run files).run [] =
      (((outcome, asked ++ asked'), files₂), reported') := hr.noted []
  have hreported : (((noted.run []).run files).run []).2 = [.written "good.tick"] := by
    decide +kernel
  have hasked : (((noted.run []).run files).run []).1.1.2 =
      .read "good.tick" :: options.replacing "good.tick" "var x = 1\n" ++
        [.read "/data/bad.tick"] := by
    decide +kernel
  have houtcome : (((noted.run []).run files).run []).1.1.1 =
      .error (.failed (.inFile "/data/bad.tick"
        (.parse ⟨.unexpected "=" [.ident], ⟨4, 1, 5⟩, "var = 2"⟩))) := by
    decide +kernel
  have hfiles (path : List String) (content : ByteArray)
      (h : (((noted.run []).run files).run []).1.2.get? path = some content) :
      files₂.get? path = some content := by
    rwa [hnoted] at h
  rw [hnoted] at hreported hasked houtcome
  exact ⟨done, rest, asked, files₁, reported, outcome, asked', files₂, reported', hpaths, hp, he,
    hr, hreported, hasked, houtcome, hfiles _ _ (by decide +kernel), hfiles _ _ (by decide +kernel),
    hfiles _ _ (by decide +kernel), hfiles _ _ (by decide +kernel)⟩

end FormatOptions

end PipelineScript
