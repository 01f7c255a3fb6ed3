import Mathlib.Algebra.Order.BigOperators.Group.List
import Mathlib.Algebra.Order.Group.Nat
import PipelineScript.Command.Files

/-!
What the steps of replacing a file do to the files.

The draft has a name that no path has, so removing it leaves the files as they were. The draft,
the file and its backup lie side by side: while one of them is there, the same paths are
directories, and every path leads where it led before.
-/
namespace PipelineScript

namespace Files

variable {files files' : Files} {path directory : List String} {name : String}

/-! ### Contents -/

theorem get?_erase (files : Files) (path other : List String) :
    (files.erase path).get? other = if other = path then none else files.get? other := by
  obtain ⟨_, entries⟩ := files
  simp only [get?, erase]
  induction entries with
  | nil => simp
  | cons entry entries ih =>
    obtain ⟨key, content⟩ := entry
    by_cases hk : key = path
    · subst hk
      simp only [List.filter_cons, bne_self_eq_false, Bool.false_eq_true, if_false, ih,
        List.lookup_cons]
      by_cases ho : other = key
      · simp [ho]
      · have hb : (other == key) = false := by simpa using ho
        simp [ho, hb]
    · by_cases ho : other = key
      · subst ho
        simp [hk]
      · have hb : (other == key) = false := by simpa using ho
        simpa [List.filter_cons, hk, List.lookup_cons, hb] using ih

theorem get?_insert (files : Files) (path other : List String) (content : ByteArray) :
    (files.insert path content).get? other =
      if other = path then some content else files.get? other := by
  by_cases h : other = path
  · simp [insert, get?, h]
  · have hb : (other == path) = false := by simpa using h
    have he := get?_erase files path other
    simpa [insert, get?, List.lookup_cons, hb, h] using he

theorem get?_move {content : ByteArray} (h : files.get? path = some content)
    (target other : List String) :
    (files.move path target).get? other =
      if other = target then some content
      else if other = path then none
      else files.get? other := by
  simp [move, h, get?_insert, get?_erase]

theorem isSome_get?_iff :
    (files.get? path).isSome ↔ ∃ entry ∈ files.entries, entry.1 = path := by
  obtain ⟨_, entries⟩ := files
  simp only [get?]
  induction entries with
  | nil => simp
  | cons entry entries ih =>
    obtain ⟨key, content⟩ := entry
    by_cases h : path = key
    · simp [h]
    · have hb : (path == key) = false := by simpa using h
      simp [List.lookup_cons, hb, Ne.symm h, ih]

/-! ### The draft -/

theorem length_lt_freshName {part : String}
    (hp : part ∈ files.directory ++ files.entries.flatMap (·.1)) :
    part.length < files.freshName.length := by
  have hm : part.length ∈ (files.directory ++ files.entries.flatMap (·.1)).map String.length :=
    List.mem_map.mpr ⟨part, hp, rfl⟩
  have hle := List.le_sum_of_mem hm
  rw [List.sum_eq_foldr] at hle
  simp only [freshName, String.length_append, String.length_ofList, List.length_replicate]
  have h0 : ".draft-".length = 7 := by decide
  omega

theorem freshName_ne_backup (files : Files) (name : String) :
    files.freshName ≠ name ++ backupSuffix := by
  -- no draft has the letter in its name
  have hdraft : 'o' ∉ files.freshName.toList := by
    simp [freshName]
  have hbackup : 'o' ∈ (name ++ backupSuffix).toList := by
    simp [backupSuffix]
  intro h
  rw [h] at hdraft
  exact hdraft hbackup

/-- The path of a draft in a directory. -/
def draftIn (files : Files) (directory : List String) : List String :=
  directory ++ [files.freshName]

theorem ne_draftIn_of_mem {entry : List String × ByteArray} (he : entry ∈ files.entries)
    (directory : List String) : entry.1 ≠ files.draftIn directory := by
  intro h
  have hm : files.freshName ∈ files.entries.flatMap (·.1) :=
    List.mem_flatMap.mpr ⟨entry, he, by simp [h, draftIn]⟩
  exact Nat.lt_irrefl _ (length_lt_freshName (List.mem_append_right _ hm))

theorem get?_draftIn (files : Files) (directory : List String) :
    files.get? (files.draftIn directory) = none := by
  rw [← Option.not_isSome_iff_eq_none, isSome_get?_iff]
  rintro ⟨entry, he, hp⟩
  exact ne_draftIn_of_mem he directory hp

theorem ne_draftIn {content : ByteArray} (h : files.get? path = some content)
    (directory : List String) : path ≠ files.draftIn directory := by
  rintro rfl
  rw [get?_draftIn] at h
  cases h

theorem draftIn_ne_backup (files : Files) (directory : List String) (name : String) :
    files.draftIn directory ≠ directory ++ [name ++ backupSuffix] := by
  simp [draftIn, freshName_ne_backup]

theorem erase_draftIn (files : Files) (directory : List String) :
    files.erase (files.draftIn directory) = files := by
  have hall : files.entries.filter (fun entry => entry.1 != files.draftIn directory) =
      files.entries := by
    simp only [List.filter_eq_self, bne_iff_ne]
    exact fun entry he => ne_draftIn_of_mem he directory
  rw [erase, hall]

/-- Removing a draft leaves nothing behind. -/
theorem erase_insert_draftIn (files : Files) (directory : List String) (content : ByteArray) :
    (files.insert (files.draftIn directory) content).erase (files.draftIn directory) = files := by
  have he := erase_draftIn files directory
  simpa [insert, erase] using he

theorem insert_insert (files : Files) (path : List String) (a b : ByteArray) :
    (files.insert path a).insert path b = files.insert path b := by
  simp [insert, erase]

/-! ### Directories -/

@[simp] theorem directory_insert (files : Files) (path : List String) (content : ByteArray) :
    (files.insert path content).directory = files.directory := rfl

@[simp] theorem directory_move (files : Files) (source target : List String) :
    (files.move source target).directory = files.directory := by
  rw [move]
  cases files.get? source <;> rfl

theorem isDirectory_iff :
    files.isDirectory path ↔ path <+: files.directory ∨
      ∃ other, (files.get? other).isSome ∧ path <+: other ∧ path ≠ other := by
  simp only [isDirectory, Bool.or_eq_true, List.any_eq_true, Bool.and_eq_true,
    List.isPrefixOf_iff_prefix, decide_eq_true_eq, isSome_get?_iff]
  have hlt : ∀ {other : List String}, path <+: other →
      (path.length < other.length ↔ path ≠ other) := by
    intro other hp
    refine ⟨fun h => by rintro rfl; omega, fun h => ?_⟩
    exact lt_of_le_of_ne hp.length_le fun hl => h (hp.eq_of_length hl)
  refine or_congr_right ⟨?_, ?_⟩
  · rintro ⟨entry, he, hp, hl⟩
    exact ⟨entry.1, ⟨entry, he, rfl⟩, hp, (hlt hp).mp hl⟩
  · rintro ⟨_, ⟨entry, he, rfl⟩, hp, hn⟩
    exact ⟨entry, he, hp, (hlt hp).mpr hn⟩

theorem isDirectory_mono (h : files.isDirectory directory) (hp : path <+: directory) :
    files.isDirectory path := by
  rw [isDirectory_iff] at h ⊢
  rcases h with hd | ⟨other, ho, hd, hn⟩
  · exact .inl (hp.trans hd)
  · refine .inr ⟨other, ho, hp.trans hd, ?_⟩
    rintro rfl
    exact hn (hd.eq_of_length (le_antisymm hd.length_le hp.length_le))

theorem isDirectory_of_file (h : (files.get? (directory ++ [name])).isSome) :
    files.isDirectory directory :=
  isDirectory_iff.mpr (.inr ⟨_, h, List.prefix_append .., by simp⟩)

/-- A path leads on from a directory. -/
theorem isDirectory_base (files : Files) (text : String) : files.isDirectory (files.base text) := by
  refine isDirectory_iff.mpr (.inl ?_)
  rw [base]
  split
  · exact List.nil_prefix
  · exact List.prefix_rfl

/-- Files that differ in one directory only, which both have, have the same directories. -/
theorem isDirectory_eq_of_beside (hdirectory : files'.directory = files.directory)
    (hd : files.isDirectory directory) (hd' : files'.isDirectory directory)
    (h : ∀ other, (∀ name, other ≠ directory ++ [name]) → files'.get? other = files.get? other)
    (path : List String) : files'.isDirectory path = files.isDirectory path := by
  -- a file in the directory makes directories of its prefixes only, which both have
  have half : ∀ {a b : Files}, a.directory = b.directory → b.isDirectory directory →
      (∀ other, (∀ name, other ≠ directory ++ [name]) → a.get? other = b.get? other) →
      a.isDirectory path → b.isDirectory path := by
    intro a b hw hb hab ha
    rcases isDirectory_iff.mp ha with hp | ⟨other, ho, hp, hn⟩
    · exact isDirectory_iff.mpr (.inl (hw ▸ hp))
    · by_cases hbeside : ∃ name, other = directory ++ [name]
      · obtain ⟨name, rfl⟩ := hbeside
        rcases List.prefix_concat_iff.mp hp with rfl | hp
        · exact absurd rfl hn
        · exact isDirectory_mono hb hp
      · rw [hab other fun name e => hbeside ⟨name, e⟩] at ho
        exact isDirectory_iff.mpr (.inr ⟨other, ho, hp, hn⟩)
  rw [Bool.eq_iff_iff]
  exact ⟨half hdirectory hd h, half hdirectory.symm hd' fun other ho => (h other ho).symm⟩

/-! ### Paths -/

/-- Whether a part of a path names no entry of a directory. -/
def isStep (part : String) : Bool := part = "" || part = "." || part = ".."

/-- How the parts of a path lead from a directory to a path. -/
inductive Reaches (files : Files) : List String → List String → List String → Prop
  | here {directory : List String} : Reaches files directory [] directory
  | stay {directory parts path : List String} {part : String} (hpart : part = "" ∨ part = ".")
      (h : Reaches files directory parts path) : Reaches files directory (part :: parts) path
  | up {directory parts path : List String} (h : Reaches files directory.dropLast parts path) :
      Reaches files directory (".." :: parts) path
  | name {directory : List String} {name : String} (hname : isStep name = false) :
      Reaches files directory [name] (directory ++ [name])
  | down {directory parts path : List String} {name : String} (hname : isStep name = false)
      (hparts : parts ≠ []) (hd : files.isDirectory (directory ++ [name]))
      (h : Reaches files (directory ++ [name]) parts path) :
      Reaches files directory (name :: parts) path

theorem isStep_eq_false_iff {part : String} :
    isStep part = false ↔ ¬(part = "" ∨ part = ".") ∧ part ≠ ".." := by
  simp [isStep, and_assoc]

theorem Reaches.eq_of_nil (h : Reaches files directory [] path) : path = directory := by
  cases h
  rfl

theorem follow_eq_ok_iff {parts : List String} :
    files.follow directory parts = .ok path ↔ Reaches files directory parts path := by
  constructor
  · intro h
    induction parts generalizing directory with
    | nil =>
      cases h
      exact .here
    | cons part parts ih =>
      simp only [follow] at h
      split_ifs at h with hstay hup hlast hd
      · exact .stay hstay (ih h)
      · subst hup
        exact .up (ih h)
      · have hname := isStep_eq_false_iff.2 ⟨hstay, hup⟩
        obtain rfl : parts = [] := by simpa using hlast
        cases h
        exact .name hname
      · exact .down (isStep_eq_false_iff.2 ⟨hstay, hup⟩) (by simpa using hlast) hd (ih h)
  · intro h
    induction h with
    | here => rfl
    | stay hpart _ ih => rw [follow, if_pos hpart, ih]
    | up _ ih => rw [follow, if_neg (by decide), if_pos rfl, ih]
    | name hname =>
      obtain ⟨hstay, hup⟩ := isStep_eq_false_iff.1 hname
      simp only [follow, if_neg hstay, if_neg hup, List.isEmpty_nil, if_true]
    | down hname hparts hd _ ih =>
      obtain ⟨hstay, hup⟩ := isStep_eq_false_iff.1 hname
      simp only [follow, if_neg hstay, if_neg hup, if_neg (mt List.isEmpty_iff.1 hparts),
        if_pos hd, ih]

/-- Where a path leads depends on the directories only. -/
theorem follow_of_isDirectory_eq (h : ∀ p, files'.isDirectory p = files.isDirectory p)
    {parts : List String} (hf : files.follow directory parts = .ok path) :
    files'.follow directory parts = .ok path := by
  rw [follow_eq_ok_iff] at hf ⊢
  induction hf with
  | here => exact .here
  | stay hpart _ ih => exact .stay hpart ih
  | up _ ih => exact .up ih
  | name hname => exact .name hname
  | down hname hparts hd _ ih => exact .down hname hparts (by rwa [h]) ih

theorem resolve_of_isDirectory_eq (hdirectory : files'.directory = files.directory)
    (h : ∀ p, files'.isDirectory p = files.isDirectory p) {text : String}
    (hr : files.resolve text = .ok path) : files'.resolve text = .ok path := by
  simp only [resolve, base, hdirectory] at hr ⊢
  split at hr
  · cases hr
  · rw [if_neg ‹_›]
    exact follow_of_isDirectory_eq h hr

/-- A path that does not lead to a directory ends in a name, and every other name in its place
leads beside it. -/
theorem follow_beside {parts : List String} {last : String} (hd : files.isDirectory directory)
    (hf : files.follow directory (parts ++ [last]) = .ok path)
    (hn : files.isDirectory path = false) :
    ∃ beside, path = beside ++ [last] ∧ files.isDirectory beside ∧ ∀ name, isStep name = false →
      files.follow directory (parts ++ [name]) = .ok (beside ++ [name]) := by
  simp only [follow_eq_ok_iff] at hf ⊢
  have hdir : files.isDirectory path ≠ true := by simp [hn]
  -- Only a name at the end leads to something that is no directory.
  induction parts generalizing directory with
  | nil =>
    cases hf with
    | stay _ h =>
      rw [h.eq_of_nil] at hdir
      exact absurd hd hdir
    | up h =>
      rw [h.eq_of_nil] at hdir
      exact absurd (isDirectory_mono hd (List.dropLast_prefix _)) hdir
    | name => exact ⟨directory, rfl, hd, fun _ hname => .name hname⟩
    | down _ hparts => exact absurd rfl hparts
  | cons part parts ih =>
    simp only [List.cons_append] at hf ⊢
    generalize htail : parts ++ [last] = tail at hf
    cases hf with
    | stay hpart h =>
      obtain ⟨beside, hpath, hb, hlead⟩ := ih hd (htail ▸ h)
      exact ⟨beside, hpath, hb, fun name hname => .stay hpart (hlead name hname)⟩
    | up h =>
      obtain ⟨beside, hpath, hb, hlead⟩ :=
        ih (isDirectory_mono hd (List.dropLast_prefix _)) (htail ▸ h)
      exact ⟨beside, hpath, hb, fun name hname => .up (hlead name hname)⟩
    | name => simp at htail
    | down hstep _ hd' h =>
      obtain ⟨beside, hpath, hb, hlead⟩ := ih hd' (htail ▸ h)
      exact ⟨beside, hpath, hb, fun name hname => .down hstep (by simp) hd' (hlead name hname)⟩

theorem splitOn_append (separator : Char) (chars tail : List Char) (h : separator ∉ tail) :
    ∃ parts last, chars.splitOn separator = parts ++ [last] ∧
      (chars ++ tail).splitOn separator = parts ++ [last ++ tail] := by
  induction chars with
  | nil =>
    exact ⟨[], [], by simp, by simpa using List.splitOn_eq_singleton h⟩
  | cons c chars ih =>
    obtain ⟨parts, last, h₁, h₂⟩ := ih
    by_cases hc : c = separator
    · subst hc
      exact ⟨[] :: parts, last, by simp [List.splitOn_cons_eq_if_modifyHead, h₁],
        by simp [List.splitOn_cons_eq_if_modifyHead, h₂]⟩
    · have hb : (c == separator) = false := by simpa using hc
      cases parts with
      | nil =>
        exact ⟨[], c :: last, by simp [List.splitOn_cons_eq_if_modifyHead, h₁, hb],
          by simp [List.splitOn_cons_eq_if_modifyHead, h₂, hb]⟩
      | cons part parts =>
        exact ⟨(c :: part) :: parts, last,
          by simp [List.splitOn_cons_eq_if_modifyHead, h₁, hb],
          by simp [List.splitOn_cons_eq_if_modifyHead, h₂, hb]⟩

theorem partsOf_append_backupSuffix (text : String) :
    ∃ parts last, partsOf text = parts ++ [last] ∧
      partsOf (text ++ backupSuffix) = parts ++ [last ++ backupSuffix] := by
  obtain ⟨parts, last, h₁, h₂⟩ :=
    splitOn_append '/' text.toList backupSuffix.toList (by decide)
  refine ⟨parts.map String.ofList, String.ofList last, by simp [partsOf, h₁], ?_⟩
  simp [partsOf, h₂]

theorem isStep_append_backupSuffix (last : String) : isStep (last ++ backupSuffix) = false := by
  have hl : ∀ short : String, short.length ≤ 2 → last ++ backupSuffix ≠ short := by
    rintro short hs rfl
    rw [String.length_append] at hs
    have : backupSuffix.length = 5 := by decide
    omega
  simp [isStep, hl "" (by decide), hl "." (by decide), hl ".." (by decide)]

theorem ne_append_backupSuffix (name : String) : name ≠ name ++ backupSuffix := by
  intro h
  have hl := congrArg String.length h
  rw [String.length_append] at hl
  have : backupSuffix.length = 5 := by decide
  omega

/-- A path that does not lead to a directory leads to a name in a directory, and its backup name
leads beside it. -/
theorem resolve_beside {text : String} (hr : files.resolve text = .ok path)
    (hn : files.isDirectory path = false) :
    ∃ directory name, path = directory ++ [name] ∧ files.isDirectory directory ∧
      files.resolve (text ++ backupSuffix) = .ok (directory ++ [name ++ backupSuffix]) := by
  obtain ⟨parts, last, hp, hb⟩ := partsOf_append_backupSuffix text
  rw [resolve] at hr
  split at hr
  · cases hr
  next hempty =>
  rw [hp] at hr
  obtain ⟨directory, hpath, hdir, hbeside⟩ := follow_beside (files.isDirectory_base text) hr hn
  have hbase : files.base (text ++ backupSuffix) = files.base text := by
    have hne : text.toList ≠ [] := by simpa using hempty
    rw [base, base, String.toList_append, List.head?_append_of_ne_nil _ hne]
  refine ⟨directory, last, hpath, hdir, ?_⟩
  rw [resolve, if_neg (by simp [hempty]), hbase, hb, hbeside _ (isStep_append_backupSuffix last)]

/-! ### Steps beside a file -/

theorem isDirectory_insert_beside (hd : files.isDirectory directory) (content : ByteArray)
    (path : List String) :
    (files.insert (directory ++ [name]) content).isDirectory path = files.isDirectory path := by
  have hs : ((files.insert (directory ++ [name]) content).get? (directory ++ [name])).isSome := by
    simp [get?_insert]
  refine isDirectory_eq_of_beside (by simp) hd (isDirectory_of_file hs) (fun other ho => ?_) path
  simp [get?_insert, ho name]

theorem isDirectory_move_beside {source target : String} {content : ByteArray}
    (h : files.get? (directory ++ [source]) = some content) (path : List String) :
    (files.move (directory ++ [source]) (directory ++ [target])).isDirectory path =
      files.isDirectory path := by
  have hs : (files.get? (directory ++ [source])).isSome := by simp [h]
  have ht : ((files.move (directory ++ [source]) (directory ++ [target])).get?
      (directory ++ [target])).isSome := by
    simp [get?_move h]
  refine isDirectory_eq_of_beside (by simp) (isDirectory_of_file hs) (isDirectory_of_file ht)
    (fun other ho => ?_) path
  simp [get?_move h, ho source, ho target]

/-- A file that can be read has a path that leads to it. -/
theorem read_eq_ok {text source : String} (h : files.read text = .ok source) :
    ∃ path content, files.resolve text = .ok path ∧ files.isDirectory path = false ∧
      files.get? path = some content ∧ String.fromUTF8? content = some source := by
  simp only [read, contentOf] at h
  cases hr : files.resolve text with
  | error e => simp [hr] at h
  | ok path =>
    simp only [hr] at h
    cases hd : files.isDirectory path with
    | true => simp [hd] at h
    | false =>
      cases hg : files.get? path with
      | none => simp [hd, hg] at h
      | some content =>
        simp only [hd, hg] at h
        cases hu : String.fromUTF8? content with
        | none => simp [hu] at h
        | some text =>
          simp only [hu, Bool.false_eq_true, if_false, Except.ok.injEq] at h
          subst h
          exact ⟨path, content, rfl, hd, hg, hu⟩

/-- A text leads to a file, and with the suffix of backups it leads beside the file. -/
structure Leads (files : Files) (text : String) (directory : List String) (name : String) :
    Prop where
  resolves : files.resolve text = .ok (directory ++ [name])
  resolvesBackup :
    files.resolve (text ++ backupSuffix) = .ok (directory ++ [name ++ backupSuffix])
  isDirectory : files.isDirectory directory
  isFile : files.isDirectory (directory ++ [name]) = false

theorem leads_of_read {text source : String} (h : files.read text = .ok source) :
    ∃ directory name content, files.Leads text directory name ∧
      files.get? (directory ++ [name]) = some content ∧
      String.fromUTF8? content = some source := by
  obtain ⟨path, content, hr, hn, hg, hu⟩ := read_eq_ok h
  obtain ⟨directory, name, rfl, hd, hb⟩ := resolve_beside hr hn
  exact ⟨directory, name, content, ⟨hr, hb, hd, hn⟩, hg, hu⟩

namespace Leads

variable {text : String}

theorem of_isDirectory_eq (h : files.Leads text directory name)
    (hdirectory : files'.directory = files.directory)
    (he : ∀ path, files'.isDirectory path = files.isDirectory path) :
    files'.Leads text directory name where
  resolves := resolve_of_isDirectory_eq hdirectory he h.resolves
  resolvesBackup := resolve_of_isDirectory_eq hdirectory he h.resolvesBackup
  isDirectory := by rw [he, h.isDirectory]
  isFile := by rw [he, h.isFile]

theorem create_eq (h : files.Leads text directory name) :
    files.create text = .ok (files.draftIn directory,
      files.insert (files.draftIn directory) ByteArray.empty) := by
  simp [create, draftIn, h.resolves, h.isDirectory, bind, Except.bind, pure, Except.pure]

theorem keep_eq (h : files.Leads text directory name) {content : ByteArray}
    (hc : files.get? (directory ++ [name]) = some content) :
    files.keep text =
      if files.isDirectory (directory ++ [name ++ backupSuffix]) then .error .isADirectory
      else .ok (files.move (directory ++ [name]) (directory ++ [name ++ backupSuffix])) := by
  by_cases hb : files.isDirectory (directory ++ [name ++ backupSuffix]) <;>
    simp [keep, contentOf, h.resolves, h.resolvesBackup, h.isFile, hc, hb, bind, Except.bind,
      pure, Except.pure, throw, throwThe, MonadExceptOf.throw]

theorem persist_eq (h : files.Leads text directory name) (draft : List String) :
    files.persist draft text = .ok (files.move draft (directory ++ [name])) := by
  simp [persist, h.resolves, h.isFile, bind, Except.bind, pure, Except.pure]

end Leads

/-- A draft that takes the place of a file changes that file only. -/
theorem get?_replaced (files : Files) (directory : List String) (name : String) (new : ByteArray)
    (other : List String) :
    ((files.insert (files.draftIn directory) new).move (files.draftIn directory)
        (directory ++ [name])).get? other =
      if other = directory ++ [name] then some new else files.get? other := by
  have hdraft : (files.insert (files.draftIn directory) new).get? (files.draftIn directory) =
      some new := by
    simp [get?_insert]
  rw [get?_move hdraft]
  split
  · rfl
  by_cases ho : other = files.draftIn directory
  · simp [ho, get?_draftIn]
  · simp [get?_insert, ho]

/-- With a backup, the old content goes beside the file, and nothing else changes. -/
theorem get?_replaced_backup {old : ByteArray} (hg : files.get? (directory ++ [name]) = some old)
    (new : ByteArray) (other : List String) :
    (((files.insert (files.draftIn directory) new).move (directory ++ [name])
        (directory ++ [name ++ backupSuffix])).move (files.draftIn directory)
        (directory ++ [name])).get? other =
      if other = directory ++ [name] then some new
      else if other = directory ++ [name ++ backupSuffix] then some old
      else files.get? other := by
  have hne := ne_draftIn hg directory
  -- The draft is a third name, so writing it leaves the file, and moving the file leaves it.
  have hkeep : (files.insert (files.draftIn directory) new).get? (directory ++ [name]) =
      some old := by
    rw [get?_insert, if_neg hne, hg]
  have hmoved : ((files.insert (files.draftIn directory) new).move (directory ++ [name])
      (directory ++ [name ++ backupSuffix])).get? (files.draftIn directory) = some new := by
    simp [get?_move hkeep, draftIn_ne_backup, Ne.symm hne, get?_insert]
  rw [get?_move hmoved]
  split
  · rfl
  rw [get?_move hkeep]
  by_cases ho : other = files.draftIn directory
  · simp [ho, get?_draftIn, draftIn_ne_backup]
  · simp [get?_insert, ho, ‹¬ other = directory ++ [name]›]

end Files

end PipelineScript
