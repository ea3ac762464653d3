import Mathlib.Data.List.Basic

/-!
# Buffered output

A file that is written through a buffer. What has been passed to `fwrite` is pending until the
buffer is emptied; an operation that fails has moved only a proper part of what is pending into
the file, and the rest is lost. As long as nothing seeks, a file grows at its end.
-/

namespace Stdio

variable {α : Type}

inductive Outcome where
  | ok
  | fail (written : ℕ)
deriving DecidableEq

structure File (α : Type) where
  disk : List α := []
  pos : ℕ := 0
  pending : List α := []

namespace File

def ftell (f : File α) : ℕ := f.pos + f.pending.length

def overwrite (f : File α) (moved : List α) : File α where
  disk := f.disk.take f.pos ++ moved ++ f.disk.drop (f.pos + moved.length)
  pos := f.pos + moved.length

def fflush (f : File α) : Outcome → File α
  | .ok => f.overwrite f.pending
  | .fail written => f.overwrite (f.pending.take (min written (f.pending.length - 1)))

def fwrite (f : File α) (data : List α) (outcome : Outcome) : File α :=
  let f' := { f with pending := f.pending ++ data }
  if outcome = .ok ∨ data = [] then f' else f'.fflush outcome

def fseek (f : File α) (offset : ℕ) (outcome : Outcome) : File α :=
  if outcome = .ok then { f.fflush .ok with pos := offset } else f.fflush outcome

def Appending (f : File α) : Prop := f.pos = f.disk.length

def contents (f : File α) : List α := f.disk ++ f.pending

variable {f : File α} {data : List α} {outcome : Outcome}

theorem Appending.ftell_eq (h : f.Appending) : f.ftell = f.contents.length := by
  unfold ftell contents
  rw [h, List.length_append]

theorem Appending.disk_overwrite (h : f.Appending) (moved : List α) :
    (f.overwrite moved).disk = f.disk ++ moved := by
  have hpos : f.pos = f.disk.length := h
  unfold overwrite
  rw [hpos, List.take_length, List.drop_of_length_le (Nat.le_add_right _ _), List.append_nil]

theorem Appending.overwrite (h : f.Appending) (moved : List α) : (f.overwrite moved).Appending := by
  unfold Appending
  rw [h.disk_overwrite, List.length_append, ← show f.pos = f.disk.length from h]
  rfl

theorem Appending.fflush (h : f.Appending) (outcome : Outcome) : (f.fflush outcome).Appending := by
  cases outcome with
  | ok => exact h.overwrite _
  | fail written => exact h.overwrite _

theorem Appending.contents_fflush_ok (h : f.Appending) : (f.fflush .ok).contents = f.contents := by
  change (f.overwrite f.pending).disk ++ [] = _
  rw [h.disk_overwrite, List.append_nil]
  rfl

/-- A failure keeps a part of the contents, and not all of them. -/
theorem Appending.contents_fflush_fail (h : f.Appending) (hpending : f.pending ≠ [])
    (written : ℕ) : (f.fflush (.fail written)).contents <+: f.contents ∧
      (f.fflush (.fail written)).contents.length < f.contents.length := by
  have hpos := List.length_pos_iff.mpr hpending
  have heq : (f.fflush (.fail written)).contents =
      f.disk ++ f.pending.take (min written (f.pending.length - 1)) := by
    change (f.overwrite _).disk ++ [] = _
    rw [h.disk_overwrite, List.append_nil]
  rw [heq]
  refine ⟨(List.prefix_append_right_inj _).mpr (List.take_prefix _ _), ?_⟩
  unfold contents
  rw [List.length_append, List.length_append, List.length_take]
  omega

theorem contents_fwrite_ok : (f.fwrite data .ok).contents = f.contents ++ data := by
  unfold fwrite contents
  rw [if_pos (Or.inl rfl), List.append_assoc]

theorem Appending.fwrite (h : f.Appending) (data : List α) (outcome : Outcome) :
    (f.fwrite data outcome).Appending := by
  unfold File.fwrite
  have hbuffered : ({ f with pending := f.pending ++ data } : File α).Appending := h
  split
  · exact hbuffered
  · exact hbuffered.fflush outcome

theorem Appending.contents_fwrite_fail (h : f.Appending) (hdata : data ≠ []) (written : ℕ) :
    (f.fwrite data (.fail written)).contents <+: f.contents ++ data ∧
      (f.fwrite data (.fail written)).contents.length < (f.contents ++ data).length := by
  have hbuffered : ({ f with pending := f.pending ++ data } : File α).Appending := h
  have hcontents : ({ f with pending := f.pending ++ data } : File α).contents =
      f.contents ++ data := (List.append_assoc _ _ _).symm
  unfold File.fwrite
  rw [if_neg (by simp [hdata]), ← hcontents]
  exact hbuffered.contents_fflush_fail (by simp [hdata]) written

theorem Appending.contents_fflush (h : f.Appending) (outcome : Outcome) :
    (f.fflush outcome).contents <+: f.contents := by
  cases outcome with
  | ok => exact h.contents_fflush_ok ▸ List.prefix_refl _
  | fail written =>
      change (f.overwrite _).disk ++ [] <+: _
      rw [h.disk_overwrite, List.append_nil]
      exact (List.prefix_append_right_inj _).mpr (List.take_prefix _ _)

theorem disk_fflush (f : File α) (outcome : Outcome) :
    (f.fflush outcome).disk = (f.fflush outcome).contents := by
  cases outcome with
  | ok => exact (List.append_nil _).symm
  | fail written => exact (List.append_nil _).symm

theorem Appending.contents_fwrite (h : f.Appending) (data : List α) (outcome : Outcome) :
    (f.fwrite data outcome).contents <+: f.contents ++ data := by
  have hbuffered : ({ f with pending := f.pending ++ data } : File α).Appending := h
  have hcontents : ({ f with pending := f.pending ++ data } : File α).contents =
      f.contents ++ data := (List.append_assoc _ _ _).symm
  unfold File.fwrite
  rw [← hcontents]
  split
  · exact List.prefix_refl _
  · exact hbuffered.contents_fflush outcome

theorem Appending.fseek_ok (h : f.Appending) (offset : ℕ) :
    f.fseek offset .ok = { disk := f.contents, pos := offset, pending := [] } := by
  have hdisk : (f.fflush .ok).disk = f.contents := by rw [disk_fflush, h.contents_fflush_ok]
  unfold File.fseek
  rw [if_pos rfl, ← hdisk]
  rfl

/-- A failing seek leaves the position at the end. -/
theorem Appending.fseek_fail (h : f.Appending) (offset : ℕ) (hfail : outcome ≠ .ok) :
    (f.fseek offset outcome).Appending ∧ (f.fseek offset outcome).contents <+: f.contents := by
  unfold File.fseek
  rw [if_neg hfail]
  exact ⟨h.fflush outcome, h.contents_fflush outcome⟩

/-- What is written at the start of a file replaces what has been there, in full or in part. -/
theorem disk_overwrite_start (disk : List α) (hdata : data ≠ []) (written flushed : Outcome) :
    ∃ n, (((File.mk disk 0 []).fwrite data written).fflush flushed).disk =
        data.take n ++ disk.drop n ∧ n ≤ data.length ∧
      (n = data.length ↔ written = .ok ∧ flushed = .ok) := by
  have hpos := List.length_pos_iff.mpr hdata
  have hflush (outcome : Outcome) : ∃ n, ((File.mk disk 0 data).fflush outcome) =
      { disk := data.take n ++ disk.drop n, pos := n } ∧ n ≤ data.length ∧
      (n = data.length ↔ outcome = .ok) := by
    cases outcome with
    | ok =>
        refine ⟨data.length, ?_, Nat.le_refl _, iff_of_true rfl rfl⟩
        simp [File.fflush, overwrite]
    | fail k =>
        refine ⟨min k (data.length - 1), ?_, by omega, iff_of_false (by omega) nofun⟩
        have hlength : (data.take (min k (data.length - 1))).length = min k (data.length - 1) := by
          rw [List.length_take]
          omega
        simp only [File.fflush, overwrite, hlength, List.take_zero, List.nil_append, Nat.zero_add]
  obtain ⟨n, hn, hle, hiff⟩ := hflush written
  unfold File.fwrite
  by_cases hok : written = .ok
  · obtain ⟨m, hm, hle, hiff⟩ := hflush flushed
    refine ⟨m, ?_, hle, by rw [hiff, and_iff_right hok]⟩
    rw [if_pos (Or.inl hok), List.nil_append, hm]
  · refine ⟨n, ?_, hle, by rw [hiff, iff_false_intro hok, false_and]⟩
    rw [if_neg (by simp [hok, hdata]), List.nil_append, hn]
    cases flushed with
    | ok => simp [File.fflush, overwrite]
    | fail k => simp [File.fflush, overwrite]

end File

end Stdio
