/-
  A process that commits a package while another one saves changes to it: the
  locks of `uci_commit` on the delta file, and what is lost between them.
-/
import IotLib.Lib.Run
import IotLib.Uci.Commit

namespace Uci

open Exec

/-! ## Processes -/

/-- How far the commit is: each step holds the lock of the delta file at most once. -/
inductive Pc where
  | start
  | opened (p : Package)
  | loaded (p : Package) (changes : Nat)
  | ready (p : Package)
  | finished
deriving DecidableEq

/-- The files and the commit. For the record, `read` is what the commit has read from the delta
    file, and `saves` is what was saved by the other process. -/
structure Sys where
  disk : Disk
  pc : Pc := .start
  read : List Delta := []
  saves : List Delta := []

inductive Move where
  | commit
  | save (ds : List Delta)

/-- `uci_save` by the other process: the lines are appended under the lock. -/
def Sys.save (s : Sys) (ds : List Delta) : Sys :=
  { s with disk := { s.disk with delta := some (s.disk.saved ++ ds) }, saves := s.saves ++ ds }

variable (j : Commit)

/-- The next step of the commit. -/
def Commit.next (s : Sys) : Sys :=
  match s.pc with
  | .start =>
    match j.start s.disk with
    | .ok p disk =>
      { s with disk := disk, pc := if j.package.hasDelta then .opened p else .ready p }
    | .error _ disk => { s with disk := disk, pc := .finished }
  | .opened p =>
    match j.load p s.disk with
    | .ok (p, changes) disk =>
      { s with disk := disk, pc := .loaded p changes, read := j.readable s.disk }
    | .error _ disk => { s with disk := disk, pc := .finished }
  | .loaded p changes =>
    match j.flush changes s.disk with
    | .ok _ disk => { s with disk := disk, pc := if changes ≠ 0 then .ready p else .finished }
    | .error _ disk => { s with disk := disk, pc := .finished }
  | .ready p => { s with disk := endsIn (j.replace p) s.disk, pc := .finished }
  | .finished => s

def Commit.step (s : Sys) : Move → Sys
  | .commit => j.next s
  | .save ds => s.save ds

section
variable {j} {p : Package} {disk : Disk} {s : Sys}

/-- The package that is read only depends on the configuration file. -/
theorem Commit.base_congr {disk' : Disk} (h : disk.config = disk'.config) :
    j.base disk = j.base disk' := by
  have hreload : ∀ d d' : Disk, d.config = d'.config →
      (match j.reload d with | .ok p _ => some p | .error _ _ => none) =
        (match j.reload d' with | .ok p _ => some p | .error _ _ => none) := by
    intro d d' hd
    unfold Commit.reload
    simp only [bind, EStateM.bind, get, getThe, MonadStateOf.get, EStateM.get, hd]
    rcases uciImport d'.config (some j.package.name) none true j.ctx with ⟨_ | p, c⟩ | ⟨e, c⟩ <;> rfl
  unfold Commit.base Commit.start
  by_cases hfault : j.fault = some .config
  · simp only [if_pos hfault]
    rfl
  simp only [if_neg hfault]
  by_cases hmerge : j.package.hasDelta = true ∧ j.overwrite = false
  swap
  · simp only [if_neg hmerge]
    rfl
  simp only [if_pos hmerge]
  by_cases hdelta : j.package.delta ≠ []
  · simp only [if_pos hdelta]
    by_cases hsave : j.fault = some .save
    · simp only [if_pos hsave]
      rfl
    · simp only [if_neg hsave]
      exact hreload { disk with delta := some (disk.saved ++ j.package.delta) }
        { disk' with delta := some (disk'.saved ++ j.package.delta) } h
  · simp only [if_neg hdelta]
    exact hreload disk disk' h

end

/-! ## Changes that are not lost -/

/-- The saved changes have the form of those that `uci_save` writes. -/
def Move.Form : Move → Prop
  | .commit => True
  | .save ds => ∀ d ∈ ds, d.Form

/-- The delta file is not emptied. -/
def Commit.Leaves (changes : Nat) : Prop :=
  changes = 0 ∨ j.fault = some .flush ∨ j.fault = some .truncate

/-- Nothing is saved between reading and emptying the delta file; the saved changes
    are executed when they are read, unless the file is not emptied; and if it was,
    the new configuration gets into place. -/
def Commit.Admissible (s : Sys) : Move → Prop
  | .save _ =>
    match s.pc with
    | .loaded _ changes => j.Leaves changes
    | _ => True
  | .commit =>
    match s.pc with
    | .opened p =>
      j.Leaves ((j.loaded p s.disk).2.1 + (j.loaded p s.disk).2.2.length) ∨
        ∀ d ∈ s.saves, d ∈ (j.loaded p s.disk).2.2
    | .ready p =>
      (∀ d ∈ s.saves, d ∈ s.disk.saved) ∨
        ¬ j.late ∧ j.written (uciExportPackage j.exportName false p) =
          uciExportPackage j.exportName false p
    | _ => True

instance (changes : Nat) : Decidable (j.Leaves changes) := inferInstanceAs (Decidable (_ ∨ _))

instance : ∀ s m, Decidable (j.Admissible s m)
  | ⟨_, .loaded _ changes, _, _⟩, .save _ => inferInstanceAs (Decidable (j.Leaves changes))
  | ⟨_, .opened _, _, _⟩, .commit => inferInstanceAs (Decidable (_ ∨ _))
  | ⟨_, .ready _, _, _⟩, .commit => inferInstanceAs (Decidable (_ ∨ _))
  | ⟨_, .start, _, _⟩, .save _ | ⟨_, .opened _, _, _⟩, .save _ | ⟨_, .ready _, _, _⟩, .save _
  | ⟨_, .finished, _, _⟩, .save _ | ⟨_, .start, _, _⟩, .commit | ⟨_, .loaded _ _, _, _⟩, .commit
  | ⟨_, .finished, _, _⟩, .commit => inferInstanceAs (Decidable True)

/-- The change was executed on the way to the package `p`; `first` are the files
    at the beginning. -/
def Commit.Executed (first : Disk) (s : Sys) (p : Package) (d : Delta) : Prop :=
  ∃ p₀, j.base first = some p₀ ∧ p = (replay (j.loadOthers p₀).1 s.read).1 ∧
    d ∈ (replay (j.loadOthers p₀).1 s.read).2

/-- The configuration file is that of a package in which the change was executed. -/
def Commit.Applied (first : Disk) (s : Sys) (d : Delta) : Prop :=
  ∃ p, j.Executed first s p d ∧ s.disk.config = uciExportPackage j.exportName false p

/-- Where a saved change is, at each point of the commit. -/
def Commit.Holds (first : Disk) (s : Sys) (d : Delta) : Prop :=
  match s.pc with
  | .start | .opened _ => d ∈ s.disk.saved
  | .loaded p changes => d ∈ s.disk.saved ∧ (j.Leaves changes ∨ j.Executed first s p d)
  | .ready p => d ∈ s.disk.saved ∨ j.Executed first s p d
  | .finished => d ∈ s.disk.saved ∨ j.Applied first s d

/-- What the commit has in memory. -/
def Commit.Loads (first : Disk) (s : Sys) : Prop :=
  match s.pc with
  | .start => s.disk.config = first.config
  | .opened p => p.hasDelta = true ∧ p.name = j.package.name ∧ j.base first = some p
  | _ => True

structure Commit.Inv (first : Disk) (s : Sys) : Prop where
  form : ∀ d ∈ s.disk.saved, d.Form
  loads : j.Loads first s
  saves : ∀ d ∈ s.saves, j.Holds first s d

section
variable {j} {first : Disk} {s : Sys}

theorem Commit.Holds.save {d : Delta} (ds : List Delta) (h : j.Holds first s d) :
    j.Holds first (s.save ds) d := by
  obtain ⟨disk, pc, read, saves⟩ := s
  have hmem : d ∈ disk.saved → d ∈ disk.saved ++ ds := List.mem_append_left ds
  cases pc with
  | start => exact hmem h
  | opened p => exact hmem h
  | loaded p changes => exact ⟨hmem h.1, h.2⟩
  | ready p => exact Or.imp_left hmem h
  | finished => exact Or.imp_left hmem h

theorem Commit.Inv.save {ds : List Delta} (h : j.Inv first s) (hds : ∀ d ∈ ds, d.Form)
    (hok : j.Admissible s (.save ds)) : j.Inv first (s.save ds) := by
  refine ⟨?_, h.loads, ?_⟩
  · intro d hd
    rcases List.mem_append.1 hd with hd | hd
    · exact h.form d hd
    · exact hds d hd
  · intro d hd
    rcases List.mem_append.1 hd with hd | hd
    · exact (h.saves d hd).save ds
    · have hsaved : d ∈ (s.save ds).disk.saved := List.mem_append_right _ hd
      obtain ⟨disk, pc, read, saves⟩ := s
      cases pc with
      | start => exact hsaved
      | opened p => exact hsaved
      | loaded p changes => exact ⟨hsaved, Or.inl hok⟩
      | ready p => exact Or.inl hsaved
      | finished => exact Or.inl hsaved

/-- Reading the configuration. -/
theorem Commit.Inv.start (h : j.Inv first s) (hown : ∀ d ∈ j.own, d.Form) (hpc : s.pc = .start) :
    j.Inv first (j.next s) := by
  obtain ⟨disk, pc, read, saves⟩ := s
  obtain rfl : pc = .start := hpc
  have hconfig : disk.config = first.config := h.loads
  have hsaves : ∀ d ∈ saves, d ∈ disk.saved := h.saves
  have hopened : ∀ d ∈ disk.saved, d ∈ (j.opened disk).saved := by
    intro d hd
    rw [Commit.opened_saved]
    exact List.mem_append_left _ hd
  have hform : ∀ d ∈ (j.opened disk).saved, d.Form := by
    rw [Commit.opened_saved]
    intro d hd
    rcases List.mem_append.1 hd with hd | hd
    · exact h.form d hd
    · exact hown d hd
  rcases j.start_cases disk with ⟨e, disk', hthrow, hdisk'⟩ | ⟨p, hstart, hpn, hpd⟩
  · have hnext : j.next ⟨disk, .start, read, saves⟩ = ⟨disk', .finished, read, saves⟩ := by
      simp only [Commit.next, show j.start disk = .error e disk' from hthrow]
    rw [hnext]
    rcases hdisk' with rfl | rfl
    · exact ⟨h.form, trivial, fun d hd => Or.inl (hsaves d hd)⟩
    · exact ⟨hform, trivial, fun d hd => Or.inl (hopened d (hsaves d hd))⟩
  · have hbase : j.base first = some p := by
      rw [← Commit.base_congr hconfig]
      exact Commit.base_eq hstart
    have hnext : j.next ⟨disk, .start, read, saves⟩ =
        ⟨j.opened disk, if j.package.hasDelta then .opened p else .ready p, read, saves⟩ := by
      simp only [Commit.next, show j.start disk = .ok p (j.opened disk) from hstart]
    rw [hnext]
    cases hdelta : j.package.hasDelta with
    | true =>
      exact ⟨hform, ⟨hpd.trans hdelta, hpn, hbase⟩, fun d hd => hopened d (hsaves d hd)⟩
    | false => exact ⟨hform, trivial, fun d hd => Or.inl (hopened d (hsaves d hd))⟩

/-- Reading the changes. -/
theorem Commit.Inv.load (h : j.Inv first s) (hname : uciValidateStr j.package.name true true = true)
    (hok : j.Admissible s .commit) {p : Package} (hpc : s.pc = .opened p) :
    j.Inv first (j.next s) := by
  obtain ⟨disk, pc, read, saves⟩ := s
  obtain rfl : pc = .opened p := hpc
  obtain ⟨hpd, hpn, hbase⟩ : p.hasDelta = true ∧ p.name = j.package.name ∧ j.base first = some p :=
    h.loads
  obtain ⟨hload, -⟩ := Commit.load_runs hpd hpn hname h.form
  have hnext : j.next ⟨disk, .opened p, read, saves⟩ = ⟨disk, .loaded (j.loaded p disk).1
      ((j.loaded p disk).2.1 + (j.loaded p disk).2.2.length), j.readable disk, saves⟩ := by
    simp only [Commit.next, show j.load p disk = .ok _ disk from hload]
  rw [hnext]
  refine ⟨h.form, trivial, fun d hd => ⟨h.saves d hd, ?_⟩⟩
  exact Or.imp_right (fun hall => ⟨p, hbase, rfl, hall d hd⟩) hok

/-- Emptying the delta file. -/
theorem Commit.Inv.flush (h : j.Inv first s) {p : Package} {changes : Nat}
    (hpc : s.pc = .loaded p changes) : j.Inv first (j.next s) := by
  obtain ⟨disk, pc, read, saves⟩ := s
  obtain rfl : pc = .loaded p changes := hpc
  have hsaves : ∀ d ∈ saves, d ∈ disk.saved ∧
      (j.Leaves changes ∨ j.Executed first ⟨disk, .loaded p changes, read, saves⟩ p d) := h.saves
  have hnext : ∀ disk', Runs (j.flush changes) disk () disk' →
      j.next ⟨disk, .loaded p changes, read, saves⟩ =
        ⟨disk', if changes ≠ 0 then .ready p else .finished, read, saves⟩ := by
    intro disk' hrun
    simp only [Commit.next, show j.flush changes disk = .ok () disk' from hrun]
  by_cases hkeep : disk.delta ≠ none ∧ j.fault ≠ some .flush ∧ changes ≠ 0
  · by_cases htrunc : j.fault = some .truncate
    · have hthrow := Commit.flush_throws hkeep.1 hkeep.2.2 htrunc
      have hstop : j.next ⟨disk, .loaded p changes, read, saves⟩ = ⟨disk, .finished, read, saves⟩ := by
        simp only [Commit.next, show j.flush changes disk = .error .io disk from hthrow]
      rw [hstop]
      exact ⟨h.form, trivial, fun d hd => Or.inl (hsaves d hd).1⟩
    · rw [hnext _ (Commit.flush_empties hkeep.1 hkeep.2.1 hkeep.2.2 htrunc), if_pos hkeep.2.2]
      refine ⟨by simp [Disk.saved], trivial, fun d hd => Or.inr ?_⟩
      rcases (hsaves d hd).2 with (h0 | h0 | h0) | hexec
      · exact absurd h0 hkeep.2.2
      · exact absurd h0 hkeep.2.1
      · exact absurd h0 htrunc
      · exact hexec
  · have hrun : Runs (j.flush changes) disk () disk := by
      unfold Commit.flush
      refine .read ?_
      rw [if_neg hkeep]
      exact .ret _ _
    rw [hnext _ hrun]
    split_ifs
    · exact ⟨h.form, trivial, fun d hd => Or.inl (hsaves d hd).1⟩
    · exact ⟨h.form, trivial, fun d hd => Or.inl (hsaves d hd).1⟩

/-- Replacing the configuration. -/
theorem Commit.Inv.replace (h : j.Inv first s) (hok : j.Admissible s .commit) {p : Package}
    (hpc : s.pc = .ready p) : j.Inv first (j.next s) := by
  obtain ⟨disk, pc, read, saves⟩ := s
  obtain rfl : pc = .ready p := hpc
  have hsaves : ∀ d ∈ saves,
      d ∈ disk.saved ∨ j.Executed first ⟨disk, .ready p, read, saves⟩ p d := h.saves
  have hnext : j.next ⟨disk, .ready p, read, saves⟩ =
      ⟨endsIn (j.replace p) disk, .finished, read, saves⟩ := rfl
  rw [hnext, Commit.replace_endsIn]
  refine ⟨h.form, trivial, fun d hd => ?_⟩
  rcases hok with hkept | hplace
  · exact Or.inl (hkept d hd)
  · refine (hsaves d hd).imp_right fun hexec => ⟨p, hexec, ?_⟩
    exact (if_neg hplace.1).trans hplace.2

theorem Commit.Inv.step (hname : uciValidateStr j.package.name true true = true)
    (hown : ∀ d ∈ j.own, d.Form) {m : Move} (hok : m.Form ∧ j.Admissible s m) (h : j.Inv first s) :
    j.Inv first (j.step s m) := by
  cases m with
  | save ds => exact h.save hok.1 hok.2
  | commit =>
    change j.Inv first (j.next s)
    cases hpc : s.pc with
    | start => exact h.start hown hpc
    | opened p => exact h.load hname hok.2 hpc
    | loaded p changes => exact h.flush hpc
    | ready p => exact h.replace hok.2 hpc
    | finished =>
      have hnext : j.next s = s := by
        simp only [Commit.next, hpc]
      rw [hnext]
      exact h

end

end Uci
