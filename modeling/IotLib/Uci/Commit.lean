/-
  Committing a package (`uci_file_commit`): the saved changes are read and flushed, and the
  configuration file is replaced. Any of the system calls may fail on the way.
-/
import IotLib.Uci.Frame

namespace Uci

open Exec

/-! ## Files -/

/-- The configuration file of a package, and the changes in its delta file in
    `savedir`, if there is one. -/
structure Disk where
  config : Str
  delta : Option (List Delta) := none
deriving DecidableEq

/-- The changes that are saved. -/
def Disk.saved (disk : Disk) : List Delta := disk.delta.getD []

/-- The system call that fails: opening and locking the configuration file, the delta file for the
    changes in memory, for reading, and for flushing it; truncating it; the calls for the temporary
    file, of which `n` bytes are written; and those that put it into place. -/
inductive Fault where
  | config
  | save
  | read
  | flush
  | truncate
  | mkstemp
  | lock
  | seek
  | fdopen
  | write (n : Nat)
  | sync
  | realpath
  | stat
  | chmod
  | rename
deriving DecidableEq

/-- A call of `uci_commit`; `others` are the delta files of the search path that
    come before `savedir`. -/
structure Commit where
  ctx : Ctx := {}
  exportName : Bool := false
  others : List (Option Str) := []
  overwrite : Bool := false
  package : Package
  fault : Option Fault := none

abbrev D := EStateM Err Disk

variable (j : Commit)

/-! ## `uci_file_commit` -/

/-- The configuration is read again. -/
def Commit.reload : D Package := do
  let disk ← get
  match uciImport disk.config (some j.package.name) none true j.ctx with
  | .ok (some p) _ => return { p with hasDelta := true }
  | .ok none _ => throw .inval
  | .error e _ => throw e

/-- The configuration file is locked, and the changes in memory are saved before it is read. -/
def Commit.start : D Package := do
  if j.fault = some .config then throw .io
  if j.package.hasDelta = true ∧ j.overwrite = false then
    if j.package.delta ≠ [] then
      if j.fault = some .save then throw .io
      modify fun disk => { disk with delta := some (disk.saved ++ j.package.delta) }
    j.reload
  else return j.package

/-- The first part of `uci_load_delta`: the package, and the number of changes.
    Each file is only locked while it is read. -/
def Commit.load (p : Package) : D (Package × Nat) := do
  let disk ← get
  let text := fun (delta : List Delta) => delta.flatMap (uciDeltaSave j.package.name)
  let file := if j.fault = some .read then none else disk.delta.map text
  match uciLoadDelta (j.others ++ [file]) { j.ctx with package := some p } with
  | .ok n c => return (c.package.getD p, n)
  | .error e _ => throw e

/-- The second part of `uci_load_delta`: the delta file is opened again, and
    emptied if there were changes. -/
def Commit.flush (changes : Nat) : D Unit := do
  let disk ← get
  if disk.delta ≠ none ∧ j.fault ≠ some .flush ∧ changes ≠ 0 then
    if j.fault = some .truncate then throw .io
    set { disk with delta := some [] }

/-- What is written to the temporary file. The errors of this are ignored, as are those of `fflush`
    and `fsync`. -/
def Commit.written (new : Str) : Str :=
  match j.fault with
  | some (.write n) => new.take n
  | _ => new

/-- The package is exported to a temporary file, which replaces the configuration. -/
def Commit.replace (p : Package) : D Unit := do
  if j.fault ∈ [some .mkstemp, some .lock, some .seek, some .fdopen] then throw .io
  let temp := j.written (uciExportPackage j.exportName false p)
  if j.fault ∈ [some .realpath, some .stat, some .chmod, some .rename] then throw .io
  modify fun disk => { disk with config := temp }

/-- `uci_file_commit`, for a package with a path. -/
def uciFileCommit : D Unit := do
  let p ← j.start
  if j.package.hasDelta then
    let (p, changes) ← j.load p
    j.flush changes
    if changes ≠ 0 then j.replace p
  else j.replace p

/-- The files in the end, whether the computation has failed or not. -/
def endsIn {α : Type} (x : D α) (disk : Disk) : Disk :=
  match x disk with
  | .ok _ disk => disk
  | .error _ disk => disk

/-- The files after the call. -/
def Commit.after (disk : Disk) : Disk := endsIn (uciFileCommit j) disk

/-! ## Reading the changes -/

/-- The package after the other files were read, and the number of their changes. -/
def Commit.loadOthers (p : Package) : Package × Nat :=
  match uciLoadDelta j.others { j.ctx with package := some p } with
  | .ok n c => (c.package.getD p, n)
  | .error _ _ => (p, 0)

/-- What is read from the delta file. -/
def Commit.readable (disk : Disk) : List Delta :=
  if j.fault = some .read then [] else disk.saved

/-- Loading the changes: the package, the number of changes from the other files,
    and the changes of the delta file that are executed. -/
def Commit.loaded (p : Package) (disk : Disk) : Package × Nat × List Delta :=
  let r := replay (j.loadOthers p).1 (j.readable disk)
  (r.1, (j.loadOthers p).2, r.2)

section
variable {j} {p : Package} {disk : Disk} {name : Str}

theorem loadFiles_total (files : List (Option Str)) : ∀ (m : Nat) {c : Ctx}, Named name c →
    ∃ n c', Runs (files.foldlM (fun changes file => return changes + (← uciLoadDeltaFile file)) m)
      c n c' ∧ Named name c' := by
  induction files with
  | nil => exact fun m c hc => ⟨m, c, .ret _ _, hc⟩
  | cons file files ih =>
    intro m c hc
    obtain ⟨n, c₁, hfile, hc₁⟩ := uciLoadDeltaFile_total file hc
    obtain ⟨n', c', hrest, hc'⟩ := ih (m + n) hc₁
    rw [List.foldlM_cons]
    exact ⟨n', c', .seq (.seq hfile (.ret _ _)) hrest, hc'⟩

/-- The changes of the delta file are executed after those of the other files. -/
theorem Commit.load_runs (hp : p.hasDelta = true) (hname : p.name = j.package.name)
    (hvalid : uciValidateStr j.package.name true true = true) (hform : ∀ d ∈ disk.saved, d.Form) :
    Runs (j.load p) disk ((j.loaded p disk).1, (j.loaded p disk).2.1 + (j.loaded p disk).2.2.length)
      disk ∧ (j.loadOthers p).1.name = j.package.name := by
  let c : Ctx := { j.ctx with package := some p }
  have hc : Named j.package.name c := ⟨p, rfl, hname⟩
  obtain ⟨n, c₁, hothers, p₁, hp₁, hn₁⟩ := loadFiles_total j.others 0 hc
  have hdelta : c.package.any Package.hasDelta ≠ false := by simp [c, hp]
  have hload : Runs (uciLoadDelta j.others) c n c₁ := by
    unfold uciLoadDelta
    refine .read ?_
    rw [if_neg hdelta]
    exact hothers
  have hbefore : j.loadOthers p = (p₁, n) := by
    rw [Commit.loadOthers, show uciLoadDelta j.others { j.ctx with package := some p } = _ from hload]
    simp only [hp₁, Option.getD_some]
  set text := fun (delta : List Delta) => delta.flatMap (uciDeltaSave j.package.name) with htext
  set file := if j.fault = some .read then none else disk.delta.map text with hfile
  -- the delta file, which may be missing or unreadable
  have hread : ∃ c₂, Runs (uciLoadDeltaFile file) c₁ (replay p₁ (j.readable disk)).2.length c₂ ∧
      c₂.package = some (replay p₁ (j.readable disk)).1 := by
    have hnone : file = none → j.readable disk = [] := by
      rw [hfile, Commit.readable]
      split_ifs
      · exact fun _ => rfl
      · intro h
        rw [Disk.saved, Option.map_eq_none_iff.1 h]
        rfl
    cases hcase : file with
    | none =>
      rw [hnone hcase]
      exact ⟨c₁, .ret _ _, hp₁⟩
    | some stream =>
      have hstream : stream = text (j.readable disk) := by
        rw [hfile] at hcase
        split_ifs at hcase with hfault
        obtain ⟨ds, hds, rfl⟩ := Option.map_eq_some_iff.1 hcase
        rw [Commit.readable, if_neg hfault, Disk.saved, hds]
        rfl
      have hreadable : ∀ d ∈ j.readable disk, d.Form := by
        rw [Commit.readable]
        split_ifs
        · simp
        · exact hform
      rw [hstream, htext]
      simp only [← hn₁] at hvalid ⊢
      exact uciParseDelta_replay hvalid hreadable hp₁
  obtain ⟨c₂, hrun₂, hp₂⟩ := hread
  have hall : Runs (uciLoadDelta (j.others ++ [file])) c
      (n + (replay p₁ (j.readable disk)).2.length) c₂ := by
    unfold uciLoadDelta
    refine .read ?_
    rw [if_neg hdelta, List.foldlM_append]
    refine .seq hothers ?_
    rw [List.foldlM_cons]
    exact .seq (.seq hrun₂ (.ret _ _)) (.ret _ _)
  refine ⟨?_, by rw [hbefore]; exact hn₁⟩
  unfold Commit.load
  refine .read ?_
  have hres : uciLoadDelta (j.others ++ [file]) { j.ctx with package := some p } =
      .ok (n + (replay p₁ (j.readable disk)).2.length) c₂ := hall
  simp only [← htext, ← hfile, hres, hp₂, Commit.loaded, hbefore, Option.getD_some]
  exact .ret _ _

end

/-! ## The parts of a commit -/

/-- The changes in memory that are saved first. -/
def Commit.own : List Delta :=
  if j.package.hasDelta = true ∧ j.overwrite = false then j.package.delta else []

/-- The files once these changes are saved. -/
def Commit.opened (disk : Disk) : Disk :=
  if j.own = [] then disk else { disk with delta := some (disk.saved ++ j.own) }

theorem Commit.opened_saved (disk : Disk) : (j.opened disk).saved = disk.saved ++ j.own := by
  rw [Commit.opened]
  split_ifs with hown
  · rw [hown, List.append_nil]
  · rfl

/-- The package to which the changes are applied, unless the commit has failed before. -/
def Commit.base (disk : Disk) : Option Package :=
  match j.start disk with
  | .ok p _ => some p
  | .error _ _ => none

section
variable {j} {p : Package} {disk disk' : Disk}

theorem Commit.reload_cases (j : Commit) (disk : Disk) : (∃ e, Throws j.reload disk e disk) ∨
    ∃ p : Package, Runs j.reload disk p disk ∧ p.name = j.package.name ∧ p.hasDelta = true := by
  unfold Commit.reload
  cases himport : uciImport disk.config (some j.package.name) none true j.ctx with
  | ok r c' =>
    cases r with
    | none =>
      refine Or.inl ⟨.inval, .read ?_⟩
      simp only [himport]
      exact .raise _ _
    | some p =>
      have hname : p.name = j.package.name := uciImport_name himport
      refine Or.inr ⟨{ p with hasDelta := true }, .read ?_, hname, rfl⟩
      simp only [himport]
      exact .ret _ _
  | error e c' =>
    refine Or.inl ⟨e, .read ?_⟩
    simp only [himport]
    exact .raise _ _

/-- What `start` can do. -/
theorem Commit.start_cases (disk : Disk) :
    (∃ e disk', Throws j.start disk e disk' ∧ (disk' = disk ∨ disk' = j.opened disk)) ∨
    ∃ p, Runs j.start disk p (j.opened disk) ∧ p.name = j.package.name ∧
      p.hasDelta = j.package.hasDelta := by
  by_cases hfault : j.fault = some .config
  · refine Or.inl ⟨.io, disk, ?_, Or.inl rfl⟩
    unfold Commit.start
    rw [if_pos hfault]
    exact .first (.raise _ _)
  by_cases hmerge : j.package.hasDelta = true ∧ j.overwrite = false
  swap
  · have hown : j.opened disk = disk := by
      rw [Commit.opened, Commit.own, if_neg hmerge, if_pos rfl]
    refine Or.inr ⟨j.package, ?_, rfl, rfl⟩
    unfold Commit.start
    rw [if_neg hfault, if_neg hmerge, hown]
    exact .ret _ _
  have hown : j.own = j.package.delta := by
    rw [Commit.own, if_pos hmerge]
  have hreload := j.reload_cases (j.opened disk)
  unfold Commit.start
  simp only [if_neg hfault, if_pos hmerge]
  by_cases hdelta : j.package.delta = []
  · have hopened : j.opened disk = disk := by
      rw [Commit.opened, if_pos (hown.trans hdelta)]
    rw [hopened] at hreload ⊢
    rw [if_neg (by simp [hdelta])]
    rcases hreload with ⟨e, hthrow⟩ | ⟨p, hrun, hn, hd⟩
    · exact Or.inl ⟨e, disk, hthrow, Or.inl rfl⟩
    · exact Or.inr ⟨p, hrun, hn, hd.trans hmerge.1.symm⟩
  · rw [if_pos hdelta]
    by_cases hsave : j.fault = some .save
    · rw [if_pos hsave]
      exact Or.inl ⟨.io, disk, .first (.raise _ _), Or.inl rfl⟩
    rw [if_neg hsave]
    have hopened : j.opened disk = { disk with delta := some (disk.saved ++ j.package.delta) } := by
      rw [Commit.opened, if_neg (by rw [hown]; exact hdelta), hown]
    rw [hopened] at hreload ⊢
    rcases hreload with ⟨e, hthrow⟩ | ⟨p, hrun, hn, hd⟩
    · exact Or.inl ⟨e, _, .seq rfl hthrow, Or.inr rfl⟩
    · exact Or.inr ⟨p, .update hrun, hn, hd.trans hmerge.1.symm⟩

theorem endsIn_throws {α : Type} {x : D α} {e : Err} (h : Throws x disk e disk') :
    endsIn x disk = disk' := by
  rw [endsIn, show x disk = .error e disk' from h]

theorem endsIn_first {α β : Type} {x : D α} {f : α → D β} {e : Err} (h : Throws x disk e disk') :
    endsIn (x >>= f) disk = disk' := endsIn_throws (.first h)

end

/-- The delta file is emptied if there are changes. -/
def Commit.Empties (disk : Disk) : Prop :=
  (j.opened disk).delta ≠ none ∧ j.fault ≠ some .flush

/-- A call fails after the delta file was emptied. -/
def Commit.late : Prop :=
  j.fault ∈ [some .mkstemp, some .lock, some .seek, some .fdopen, some .realpath, some .stat,
    some .chmod, some .rename]

instance : Decidable j.late := inferInstanceAs (Decidable (_ ∈ _))

/-- The contents of the configuration file in the end. -/
def Commit.final (config new : Str) : Str := if j.late then config else j.written new

section
variable {j} {p : Package} {disk : Disk}

theorem Commit.flush_empties {changes : Nat} (hdelta : disk.delta ≠ none)
    (hfault : j.fault ≠ some .flush) (hchanges : changes ≠ 0) (htrunc : j.fault ≠ some .truncate) :
    Runs (j.flush changes) disk () { disk with delta := some [] } := by
  unfold Commit.flush
  refine .read ?_
  rw [if_pos ⟨hdelta, hfault, hchanges⟩, if_neg htrunc]
  rfl

theorem Commit.flush_throws {changes : Nat} (hdelta : disk.delta ≠ none)
    (hchanges : changes ≠ 0) (htrunc : j.fault = some .truncate) :
    Throws (j.flush changes) disk .io disk := by
  unfold Commit.flush
  refine .read ?_
  rw [if_pos ⟨hdelta, by simp [htrunc], hchanges⟩, if_pos htrunc]
  exact .first (.raise _ _)

theorem Commit.replace_endsIn (p : Package) (disk : Disk) : endsIn (j.replace p) disk =
    { disk with config := j.final disk.config (uciExportPackage j.exportName false p) } := by
  unfold Commit.replace
  by_cases h1 : j.fault ∈ [some .mkstemp, some .lock, some .seek, some .fdopen]
  · have hlate : j.late := by
      rw [Commit.late]
      simp only [List.mem_cons, List.not_mem_nil, or_false] at h1 ⊢
      tauto
    rw [if_pos h1, endsIn_first (.raise .io disk), Commit.final, if_pos hlate]
  rw [if_neg h1]
  by_cases h2 : j.fault ∈ [some .realpath, some .stat, some .chmod, some .rename]
  · have hlate : j.late := by
      rw [Commit.late]
      simp only [List.mem_cons, List.not_mem_nil, or_false] at h2 ⊢
      tauto
    simp only [if_pos h2]
    rw [endsIn_first (.raise .io disk), Commit.final, if_pos hlate]
  · have hlate : ¬ j.late := by
      rw [Commit.late]
      simp only [List.mem_cons, List.not_mem_nil, or_false] at h1 h2 ⊢
      tauto
    simp only [if_neg h2]
    rw [Commit.final, if_neg hlate]
    rfl

end

/-! ## Failing calls -/

/-- The complete new configuration, for the package `p` that was read. -/
def Commit.new (p : Package) (disk : Disk) : Str :=
  uciExportPackage j.exportName false
    (if j.package.hasDelta then (j.loaded p (j.opened disk)).1 else p)

/-- The commit ends before the configuration is replaced, and before the delta
    file is emptied: there are no changes, or it cannot be truncated. -/
def Commit.Stops (p : Package) (disk : Disk) : Prop :=
  j.package.hasDelta = true ∧
    ((j.loaded p (j.opened disk)).2.1 + (j.loaded p (j.opened disk)).2.2.length = 0 ∨
      j.Empties disk ∧ j.fault = some .truncate)

/-- If the delta file is emptied then the saved changes must have been executed,
    and the new configuration must get into place; it is never to be in parts. -/
def Commit.Safe (disk : Disk) : Prop :=
  ∀ p, j.base disk = some p → j.Stops p disk ∨
    (j.package.hasDelta = true → j.Empties disk → disk.saved ≠ [] →
      (∀ d ∈ disk.saved, d ∈ (j.loaded p (j.opened disk)).2.2) ∧
        j.final disk.config (j.new p disk) = j.new p disk) ∧
    (j.final disk.config (j.new p disk) = disk.config ∨
      j.final disk.config (j.new p disk) = j.new p disk)

section
variable {j} {p : Package} {disk : Disk}

theorem Commit.base_eq {disk' : Disk} (h : Runs j.start disk p disk') : j.base disk = some p := by
  rw [Commit.base, show j.start disk = .ok p disk' from h]

end

end Uci
