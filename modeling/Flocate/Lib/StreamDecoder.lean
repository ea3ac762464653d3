import Flocate.Lib.Bytes
import Mathlib.Data.List.Infix

/-!
# Decoders that are fed in pieces

A streaming decoder is given some input and room for output; it uses up some of the input and hands
out some output. `Keeps` says what the calls on one compressed stream add up to, whatever the sizes
of the pieces. An `Inflow` is such a stream read from a file piece by piece.
-/

namespace Bytes

structure StreamDecoder (σ : Type) where
  init : σ
  /-- The count of input bytes used up, the output and the new state, or nothing after an error. -/
  call : σ → Str → ℕ → Option (ℕ × Str × σ)

namespace StreamDecoder

variable {σ : Type} (d : StreamDecoder σ) (compressed content : Str)

/-- `R s i o idle` says that `s` is the state after `i` compressed bytes and `o` bytes of content;
it is idle if the last call neither used nor handed out anything. Then the next call must have some
input. -/
structure Keeps (R : σ → ℕ → ℕ → Bool → Prop) : Prop where
  init : R d.init 0 0 false
  call : ∀ s i o idle, R s i o idle → ∀ k room, i + k ≤ compressed.length → 0 < room →
    (idle = true → 0 < k) → ∃ c out s',
    d.call s ((compressed.drop i).take k) room = some (c, out, s') ∧ c ≤ k ∧ out.length ≤ room ∧
      out <+: content.drop o ∧ R s' (i + c) (o + out.length) (decide (c = 0 ∧ out = [])) ∧
      -- with all that is left at hand there is progress
      (i + k = compressed.length →
        (o < content.length → out ≠ []) ∧ (0 < k → c ≠ 0 ∨ out ≠ []))
  /-- The last byte of a stream is not used up before all output has been handed out. -/
  finish : ∀ s o idle, R s compressed.length o idle → o = content.length

def Decodes : Prop := compressed ≠ [] ∧ ∃ R, d.Keeps compressed content R

/-- Calls the decoder until the input is used up. The outer `none` says that there were not enough
rounds, the inner one that the decoder failed. -/
def decodeAll (room : ℕ) : ℕ → σ → Str → Option (Option Str)
  | 0, _, _ => none
  | fuel + 1, ctx, input =>
      if input = [] then some (some [])
      else
        match d.call ctx input room with
        | none => some none
        | some (consumed, out, ctx) =>
            (decodeAll room fuel ctx (input.drop consumed)).map (Option.map (out ++ ·))

variable {d} {compressed content}

theorem Keeps.decodeAll {R : σ → ℕ → ℕ → Bool → Prop} (hd : d.Keeps compressed content R)
    {room : ℕ} (hroom : 0 < room) {ctx : σ} {i o fuel : ℕ} {idle : Bool} (hR : R ctx i o idle)
    (hi : i ≤ compressed.length) (ho : o ≤ content.length)
    (hfuel : compressed.length - i + (content.length - o) < fuel) :
    d.decodeAll room fuel ctx (compressed.drop i) = some (some (content.drop o)) := by
  induction fuel generalizing ctx i o idle with
  | zero => exact absurd hfuel (Nat.not_lt_zero _)
  | succ fuel ih =>
      unfold StreamDecoder.decodeAll
      by_cases hend : i = compressed.length
      · subst hend
        rw [if_pos (List.drop_length), hd.finish ctx o idle hR, List.drop_length]
      · have hlt : i < compressed.length := lt_of_le_of_ne hi hend
        obtain ⟨c, out, ctx', hcall, hc, -, hout, hR', hprogress⟩ :=
          hd.call ctx i o idle hR (compressed.length - i) room (by omega) hroom fun _ => by omega
        have htake : (compressed.drop i).take (compressed.length - i) = compressed.drop i := by
          rw [← List.length_drop, List.take_length]
        rw [htake] at hcall
        have houtle := hout.length_le
        rw [List.length_drop] at houtle
        have hmore : 0 < c + out.length := by
          rcases (hprogress (by omega)).2 (by omega) with hne | hne
          · omega
          · have := List.length_pos_iff.mpr hne
            omega
        have hrest := ih hR' (by omega) (by omega) (by omega)
        have hcontent : out ++ content.drop (o + out.length) = content.drop o := by
          rw [← List.drop_drop]
          exact List.prefix_iff_eq_append.mp hout
        rw [if_neg (by rw [List.drop_eq_nil_iff]; omega), hcall]
        change (d.decodeAll room fuel ctx' ((compressed.drop i).drop c)).map _ = _
        rw [List.drop_drop, hrest]
        change some (some (out ++ content.drop (o + out.length))) = _
        rw [hcontent]

/-- A compressed stream is decoded as a whole, given enough rounds. -/
theorem Decodes.decodeAll (h : d.Decodes compressed content) {room : ℕ} (hroom : 0 < room)
    {fuel : ℕ} (hfuel : compressed.length + content.length < fuel) :
    d.decodeAll room fuel d.init compressed = some (some content) := by
  obtain ⟨-, R, hd⟩ := h
  exact hd.decodeAll hroom hd.init (Nat.zero_le _) (Nat.zero_le _) hfuel

structure Advancing (d : StreamDecoder σ) where
  potential : σ → ℕ → ℕ
  decreases : ∀ {s input room c out s'}, input ≠ [] → 0 < room →
    d.call s input room = some (c, out, s') →
      potential s' (input.length - c) < potential s input.length

/-- Calls the decoder until the input is used up; nothing if it fails. -/
def decompress (d : StreamDecoder σ) (h : d.Advancing) (room : ℕ) (hroom : 0 < room) (ctx : σ)
    (input : Str) : Option Str :=
  if _ : input = [] then some []
  else
    match _ : d.call ctx input room with
    | none => none
    | some (consumed, out, ctx') =>
        (d.decompress h room hroom ctx' (input.drop consumed)).map (out ++ ·)
termination_by h.potential ctx input.length
decreasing_by
  rw [List.length_drop]
  exact h.decreases (by assumption) hroom (by assumption)

theorem decompress_nil (h : d.Advancing) {room : ℕ} (hroom : 0 < room) (ctx : σ) :
    d.decompress h room hroom ctx [] = some [] := by
  rw [decompress, dif_pos rfl]

theorem decompress_none (h : d.Advancing) {room : ℕ} (hroom : 0 < room) {ctx : σ} {input : Str}
    (hne : input ≠ []) (hcall : d.call ctx input room = none) :
    d.decompress h room hroom ctx input = none := by
  rw [decompress, dif_neg hne]
  split
  · rfl
  · rename_i hsome
    exact absurd (hcall.symm.trans hsome) (by simp)

theorem decompress_call (h : d.Advancing) {room : ℕ} (hroom : 0 < room) {ctx ctx' : σ}
    {input out : Str} {consumed : ℕ} (hne : input ≠ [])
    (hcall : d.call ctx input room = some (consumed, out, ctx')) :
    d.decompress h room hroom ctx input =
      (d.decompress h room hroom ctx' (input.drop consumed)).map (out ++ ·) := by
  rw [decompress, dif_neg hne]
  split
  · rename_i hnone
    exact absurd (hcall.symm.trans hnone) (by simp)
  · rename_i hsome
    obtain ⟨rfl, hrest⟩ := Prod.mk.inj (Option.some.inj (hcall.symm.trans hsome))
    obtain ⟨rfl, rfl⟩ := Prod.mk.inj hrest
    rfl

/-- Enough rounds of the loop give what the decoder that always advances gives. -/
theorem Advancing.exists_decodeAll (h : d.Advancing) {room : ℕ} (hroom : 0 < room) (ctx : σ)
    (input : Str) :
    ∃ fuel, d.decodeAll room fuel ctx input = some (d.decompress h room hroom ctx input) := by
  induction hn : h.potential ctx input.length using Nat.strongRecOn generalizing ctx input with
  | ind n ih =>
      by_cases hne : input = []
      · subst hne
        exact ⟨1, by rw [decompress_nil, decodeAll, if_pos rfl]⟩
      · cases hcall : d.call ctx input room with
        | none =>
            refine ⟨1, ?_⟩
            rw [decompress_none h hroom hne hcall, decodeAll, if_neg hne, hcall]
        | some result =>
            obtain ⟨consumed, out, ctx'⟩ := result
            have hlt := h.decreases hne hroom hcall
            rw [hn, ← List.length_drop] at hlt
            obtain ⟨fuel, hfuel⟩ := ih _ hlt ctx' (input.drop consumed) rfl
            refine ⟨fuel + 1, ?_⟩
            rw [decompress_call h hroom hne hcall, decodeAll, if_neg hne, hcall]
            dsimp only
            rw [hfuel, Option.map_some]

/-- More rounds do not change the result. -/
theorem decodeAll_add {room fuel : ℕ} {ctx : σ} {input : Str} {r : Option Str}
    (h : d.decodeAll room fuel ctx input = some r) (n : ℕ) :
    d.decodeAll room (fuel + n) ctx input = some r := by
  induction fuel generalizing ctx input r with
  | zero => cases h
  | succ fuel ih =>
      rw [Nat.succ_add]
      unfold StreamDecoder.decodeAll at h ⊢
      split at h
      · rename_i hend
        rw [if_pos hend]
        exact h
      · rename_i hend
        rw [if_neg hend]
        cases hcall : d.call ctx input room with
        | none =>
            rw [hcall] at h
            exact h
        | some result =>
            rw [hcall] at h
            obtain ⟨rest, hrest, rfl⟩ := Option.map_eq_some_iff.mp h
            exact Option.map_eq_some_iff.mpr ⟨rest, ih hrest, rfl⟩

/-- A decoder that always advances needs no count of rounds. -/
theorem Decodes.decompress (h : d.Decodes compressed content) (hd : d.Advancing) {room : ℕ}
    (hroom : 0 < room) : d.decompress hd room hroom d.init compressed = some content := by
  obtain ⟨fuel, hfuel⟩ := hd.exists_decodeAll hroom d.init compressed
  have hall := h.decodeAll hroom (Nat.lt_succ_self _)
  have hmore := decodeAll_add hfuel (compressed.length + content.length).succ
  rw [Nat.add_comm, decodeAll_add hall fuel] at hmore
  exact (Option.some.inj hmore).symm

end StreamDecoder

/-- `block` is the part of the output that has not been consumed. -/
structure Inflow (σ : Type) where
  pos : ℕ := 0
  compressed : Str := []
  ctx : σ
  block : Str := []

namespace Inflow

variable {σ : Type} {d : StreamDecoder σ} {data content rest : Str} {s : Inflow σ}
  {R : σ → ℕ → ℕ → Bool → Prop} {idle : Bool}

def decoded (s : Inflow σ) (c : ℕ) (out : Str) (ctx : σ) : Inflow σ :=
  { s with compressed := s.compressed.drop c, ctx := ctx, block := s.block ++ out }

def read (s : Inflow σ) (data : Str) (n : ℕ) : Inflow σ :=
  { s with pos := s.pos + n, compressed := s.compressed ++ (data.drop s.pos).take n }

def consume (s : Inflow σ) (n : ℕ) : Inflow σ := { s with block := s.block.drop n }

structure At (data content : Str) (R : σ → ℕ → ℕ → Bool → Prop) (s : Inflow σ) (rest : Str)
    (idle : Bool) : Prop where
  pos_le : s.pos ≤ data.length
  suffix : rest <:+ content
  block_prefix : s.block <+: rest
  used : ∃ i ≤ s.pos, s.compressed = (data.drop i).take (s.pos - i) ∧
    R s.ctx i (content.length - rest.length + s.block.length) idle

/-- What there is left to do before all of `rest` is at hand. -/
def todo (data rest : Str) (s : Inflow σ) : ℕ :=
  2 * (data.length - s.pos) + s.compressed.length + (rest.length - s.block.length)

theorem at_start (h : d.Keeps data content R) :
    At data content R { ctx := d.init } content false where
  pos_le := Nat.zero_le _
  suffix := List.suffix_refl _
  block_prefix := List.nil_prefix
  used := ⟨0, le_refl 0, rfl, by simpa using h.init⟩

theorem At.todo_le (h : At data content R s rest idle) :
    s.todo data rest ≤ 2 * data.length + content.length := by
  obtain ⟨i, hi, hcompressed, -⟩ := h.used
  have hpos := h.pos_le
  have hrest := h.suffix.length_le
  have hlength : s.compressed.length ≤ s.pos := by
    rw [hcompressed, List.length_take]
    omega
  rw [todo]
  omega

/-- A call of the decoder hands out the next bytes. -/
theorem At.call (hd : d.Keeps data content R) (h : At data content R s rest idle) {room : ℕ}
    (hroom : 0 < room) (hidle : idle = true → s.compressed ≠ []) : ∃ c out ctx,
      d.call s.ctx s.compressed room = some (c, out, ctx) ∧
      At data content R (s.decoded c out ctx) rest (decide (c = 0 ∧ out = [])) ∧
      (s.decoded c out ctx).todo data rest + c + out.length = s.todo data rest ∧
      (s.pos = data.length → (s.block.length < rest.length → out ≠ []) ∧
        (s.compressed ≠ [] → c ≠ 0 ∨ out ≠ [])) := by
  obtain ⟨i, hi, hcompressed, hR⟩ := h.used
  have hpos := h.pos_le
  have hsuffix := h.suffix.length_le
  have hblock := h.block_prefix.length_le
  have hlength : s.compressed.length = s.pos - i := by
    rw [hcompressed, List.length_take, List.length_drop]
    omega
  obtain ⟨c, out, ctx, hcall, hc, -, hout, hR', hprogress⟩ :=
    hd.call _ i _ _ hR (s.pos - i) room (by omega) hroom fun hi =>
      hlength ▸ List.length_pos_iff.mpr (hidle hi)
  have hdrop : content.drop (content.length - rest.length + s.block.length) =
      rest.drop s.block.length := by
    rw [← List.drop_drop, ← List.suffix_iff_eq_drop.mp h.suffix]
  rw [hdrop] at hout
  have hall : s.block ++ out <+: rest := by
    rw [← List.prefix_iff_eq_append.mp h.block_prefix]
    exact List.prefix_append_right_inj _ |>.mpr hout
  have houtle := hall.length_le
  rw [List.length_append] at houtle
  refine ⟨c, out, ctx, by rwa [hcompressed], ⟨hpos, h.suffix, hall, i + c, ?_, ?_, ?_⟩, ?_, ?_⟩
  · change i + c ≤ s.pos
    omega
  · change s.compressed.drop c = (data.drop (i + c)).take (s.pos - (i + c))
    rw [hcompressed, List.drop_take, List.drop_drop, Nat.sub_sub]
  · change R ctx (i + c) (_ + (s.block ++ out).length) _
    rw [List.length_append, ← Nat.add_assoc]
    exact hR'
  · simp only [todo, decoded, List.length_drop, List.length_append]
    omega
  · intro hend
    obtain ⟨hmore, hused⟩ := hprogress (by omega)
    refine ⟨fun hlt => hmore (by omega), fun hne => hused ?_⟩
    rw [← hlength]
    exact List.length_pos_iff.mpr hne

theorem At.read (h : At data content R s rest idle) {n : ℕ} (hn : s.pos + n ≤ data.length) :
    At data content R (s.read data n) rest idle ∧ (s.read data n).todo data rest + n =
      s.todo data rest := by
  obtain ⟨i, hi, hcompressed, hR⟩ := h.used
  refine ⟨⟨hn, h.suffix, h.block_prefix, i, ?_, ?_, hR⟩, ?_⟩
  · change i ≤ s.pos + n
    omega
  · change s.compressed ++ (data.drop s.pos).take n = (data.drop i).take (s.pos + n - i)
    rw [hcompressed, show s.pos + n - i = s.pos - i + n by omega, List.take_add, List.drop_drop,
      Nat.add_sub_cancel' hi]
  · simp only [todo, Inflow.read, List.length_append, List.length_take, List.length_drop]
    omega

theorem At.consume {xs : Str} (h : At data content R s (xs ++ rest) idle)
    (hxs : xs.length ≤ s.block.length) : At data content R (s.consume xs.length) rest idle := by
  obtain ⟨i, hi, hcompressed, hR⟩ := h.used
  have hsuffix := h.suffix.length_le
  rw [List.length_append] at hsuffix
  refine ⟨h.pos_le, (List.suffix_append xs rest).trans h.suffix, ?_, i, hi, hcompressed, ?_⟩
  · have hdrop := h.block_prefix.drop xs.length
    rwa [List.drop_left] at hdrop
  · have heq : content.length - rest.length + (s.consume xs.length).block.length =
        content.length - (xs ++ rest).length + s.block.length := by
      rw [Inflow.consume, List.length_drop, List.length_append]
      omega
    rw [heq]
    exact hR

/-- `rest` can be read from a stream that decodes to `content`. -/
def Serves (d : StreamDecoder σ) (data content : Str) (s : Inflow σ) (rest : Str) : Prop :=
  ∃ R, d.Keeps data content R ∧ At data content R s rest false

theorem serves_start (h : d.Decodes data content) :
    Serves d data content { ctx := d.init } content := by
  obtain ⟨-, R, hd⟩ := h
  exact ⟨R, hd, at_start hd⟩

end Inflow

end Bytes
