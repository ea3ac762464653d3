import Flocate.Lib.Blocks
import Flocate.Lib.Bytes
import Flocate.Lib.Fault
import Flocate.Lib.Reservoir
import Mathlib.Algebra.Order.BigOperators.Group.List
import Mathlib.Algebra.Order.Group.Nat
import Mathlib.Data.List.Sort
import Mathlib.Order.Lattice

/-!
# Samples for the dictionary

Blocks of filenames are sampled, and a parallel vector holds their sizes. The two stay parallel up
to `train`, which sorts one of them.
-/

namespace Flocate

open Bytes Fault

structure DictionaryBuilder where
  blocksToKeep : ℕ
  blockSize : ℕ
  currentBlock : Str := []
  blockNum : ℕ := 0
  numFilesInBlock : ℕ := 0
  keepCurrentBlock : Bool := true
  /-- `none` for -1. -/
  slotForCurrentBlock : Option ℕ := none
  sampledBlocks : List Str := []
  lengths : List ℕ := []

namespace DictionaryBuilder

section Model

/-- The start of `flush_block`, where the block is put in its place. -/
def keepBlock (builder : DictionaryBuilder) : Except Fault DictionaryBuilder :=
  if builder.keepCurrentBlock then
    match builder.slotForCurrentBlock with
    | none => .ok { builder with
        lengths := builder.lengths ++ [builder.currentBlock.length]
        sampledBlocks := builder.sampledBlocks ++ [builder.currentBlock] }
    | some slot =>
        if slot < builder.lengths.length ∧ slot < builder.sampledBlocks.length then
          .ok { builder with
            lengths := builder.lengths.set slot builder.currentBlock.length
            sampledBlocks := builder.sampledBlocks.set slot builder.currentBlock }
        else .error .outOfBounds
  else .ok builder

/-- `draw n` is drawn from 0 to `n` when `block_num` has become `n`. -/
def flushBlock (draw : ℕ → ℕ) (builder : DictionaryBuilder) : Except Fault DictionaryBuilder := do
  let builder ← builder.keepBlock
  let blockNum := builder.blockNum + 1
  if blockNum < builder.blocksToKeep then
    .ok { builder with
      currentBlock := []
      numFilesInBlock := 0
      blockNum := blockNum
      keepCurrentBlock := true
      slotForCurrentBlock := none }
  else
    let idx := draw blockNum
    .ok { builder with
      currentBlock := []
      numFilesInBlock := 0
      blockNum := blockNum
      keepCurrentBlock := idx < builder.blocksToKeep
      slotForCurrentBlock := some idx }

def appendPath (block path : Str) : Str := (if block = [] then block else block ++ [0]) ++ path

def addFile (draw : ℕ → ℕ) (builder : DictionaryBuilder) (path : Str) :
    Except Fault DictionaryBuilder :=
  let builder := { builder with
    currentBlock :=
      if builder.keepCurrentBlock then appendPath builder.currentBlock path
      else builder.currentBlock
    numFilesInBlock := builder.numFilesInBlock + 1 }
  if builder.numFilesInBlock = builder.blockSize then builder.flushBlock draw else .ok builder

def sortBlocks (blocks : List Str) : List Str := blocks.mergeSort fun a b => decide ¬b < a

def trainingBlocks (builder : DictionaryBuilder) : List Str := sortBlocks builder.sampledBlocks

/-- `zdictTrain` stands for `ZDICT_trainFromBuffer`; `none` is an error. -/
def train (zdictTrain : ℕ → Str → List ℕ → Option Str) (bufSize : ℕ)
    (builder : DictionaryBuilder) : Str × DictionaryBuilder :=
  match zdictTrain bufSize builder.trainingBlocks.flatten builder.lengths with
  | none => ([], { builder with sampledBlocks := builder.trainingBlocks })
  | some dictionary => (dictionary, { builder with sampledBlocks := [], lengths := [] })

end Model

section Reservoir

variable {blocksToKeep blockSize : ℕ} {draw : ℕ → ℕ} {builder : DictionaryBuilder}

def fullBlocks (blockSize : ℕ) (paths : List Str) : List (List Str) :=
  (blocksOf blockSize paths).filter fun block => block.length = blockSize

def blockOf (paths : List Str) : Str := paths.foldl appendPath []

def slotOf (blocksToKeep : ℕ) (draw : ℕ → ℕ) (n : ℕ) : Option ℕ :=
  if draw n < blocksToKeep then some (draw n) else none

/-- The sample of a list of blocks. The first block is kept in any case. -/
def sampleOf (blocksToKeep : ℕ) (draw : ℕ → ℕ) (blocks : List Str) : List Str :=
  Reservoir.sample (max blocksToKeep 1) (slotOf blocksToKeep draw) blocks

/-- The vectors are parallel, and the sizes are those of the blocks in the training buffer. -/
structure MatchingSamples (builder : DictionaryBuilder) : Prop where
  sameSize : builder.sampledBlocks.length = builder.lengths.length
  atMost : builder.sampledBlocks.length ≤ builder.blocksToKeep
  sizes : ∀ i : ℕ, builder.lengths[i]? = builder.trainingBlocks[i]?.map List.length

/-- `blocks` are complete, `rest` are the paths of the next block. -/
structure Sampled (blocksToKeep blockSize : ℕ) (draw : ℕ → ℕ) (blocks : List Str)
    (rest : List Str) (builder : DictionaryBuilder) : Prop where
  toKeep : builder.blocksToKeep = blocksToKeep
  size : builder.blockSize = blockSize
  blockNum : builder.blockNum = blocks.length
  count : builder.numFilesInBlock = rest.length
  sampledBlocks : builder.sampledBlocks = sampleOf blocksToKeep draw blocks
  lengths : builder.lengths = builder.sampledBlocks.map List.length
  currentBlock : builder.keepCurrentBlock = true → builder.currentBlock = blockOf rest
  keep : builder.keepCurrentBlock = true ↔
    blocks.length < max blocksToKeep 1 ∨ draw blocks.length < blocksToKeep
  slot : builder.slotForCurrentBlock =
    if blocks.length < max blocksToKeep 1 then none else some (draw blocks.length)

theorem sampled_start (draw : ℕ → ℕ) :
    Sampled blocksToKeep blockSize draw [] []
      { blocksToKeep := blocksToKeep, blockSize := blockSize } := by
  have hfirst : ([] : List Str).length < max blocksToKeep 1 := by
    rw [List.length_nil]
    omega
  refine ⟨rfl, rfl, rfl, rfl, rfl, rfl, fun _ => rfl, ?_, ?_⟩
  · exact iff_of_true rfl (.inl hfirst)
  · rw [if_pos hfirst]

/-- The block that has become complete gets its place in both vectors. -/
theorem Sampled.keepBlock {blocks rest : List Str}
    (h : Sampled blocksToKeep blockSize draw blocks rest builder) :
    ∃ kept, builder.keepBlock = .ok { builder with
        lengths := kept.map List.length, sampledBlocks := kept } ∧
      kept = sampleOf blocksToKeep draw (blocks ++ [blockOf rest]) := by
  have hsample : sampleOf blocksToKeep draw (blocks ++ [blockOf rest]) =
      Reservoir.step (max blocksToKeep 1) (slotOf blocksToKeep draw) blocks.length
        builder.sampledBlocks (blockOf rest) := by
    rw [sampleOf, Reservoir.sample_concat, h.sampledBlocks, sampleOf]
  rw [hsample, Reservoir.step, DictionaryBuilder.keepBlock]
  by_cases hfirst : blocks.length < max blocksToKeep 1
  · have hkeep := h.keep.mpr (.inl hfirst)
    rw [if_pos hkeep, h.slot, if_pos hfirst, if_pos hfirst, h.currentBlock hkeep, h.lengths]
    exact ⟨_, by rw [List.map_append, List.map_singleton], rfl⟩
  · rw [if_neg hfirst, slotOf]
    by_cases hdraw : draw blocks.length < blocksToKeep
    · have hkeep := h.keep.mpr (.inr hdraw)
      have hlength : builder.sampledBlocks.length = max blocksToKeep 1 := by
        rw [h.sampledBlocks, sampleOf, Reservoir.length_sample]
        omega
      have hbound : draw blocks.length < builder.lengths.length ∧
          draw blocks.length < builder.sampledBlocks.length := by
        rw [h.lengths, List.length_map, hlength]
        omega
      rw [if_pos hkeep, h.slot, if_neg hfirst, if_pos hdraw, h.currentBlock hkeep]
      dsimp only
      rw [if_pos hbound, h.lengths]
      exact ⟨_, by rw [List.map_set], rfl⟩
    · have hkeep : ¬builder.keepCurrentBlock = true := fun hkeep =>
        (h.keep.mp hkeep).elim hfirst hdraw
      rw [if_neg hkeep, if_neg hdraw]
      exact ⟨builder.sampledBlocks, by rw [← h.lengths], rfl⟩

theorem Sampled.flushBlock {blocks rest : List Str}
    (h : Sampled blocksToKeep blockSize draw blocks rest builder) :
    ∃ next, builder.flushBlock draw = .ok next ∧
      Sampled blocksToKeep blockSize draw (blocks ++ [blockOf rest]) [] next := by
  obtain ⟨kept, hkept, hsample⟩ := h.keepBlock
  have hlength : (blocks ++ [blockOf rest]).length = builder.blockNum + 1 := by
    rw [List.length_append, List.length_singleton, h.blockNum]
  rw [DictionaryBuilder.flushBlock, hkept]
  by_cases hmore : builder.blockNum + 1 < blocksToKeep
  · have hfirst : (blocks ++ [blockOf rest]).length < max blocksToKeep 1 := by
      rw [hlength]
      omega
    refine ⟨_, if_pos (h.toKeep.symm ▸ hmore), h.toKeep, h.size, hlength.symm, rfl, hsample,
      rfl, fun _ => rfl, iff_of_true rfl (.inl hfirst), ?_⟩
    rw [if_pos hfirst]
  · have hfirst : ¬(blocks ++ [blockOf rest]).length < max blocksToKeep 1 := by
      rw [hlength]
      omega
    refine ⟨_, if_neg (h.toKeep.symm ▸ hmore), h.toKeep, h.size, hlength.symm, rfl, hsample,
      rfl, fun _ => rfl, ?_, ?_⟩
    · rw [hlength, h.toKeep, decide_eq_true_iff]
      exact (or_iff_right (hlength ▸ hfirst)).symm
    · rw [if_neg hfirst, hlength]

theorem blockOf_append (paths : List Str) (path : Str) :
    blockOf (paths ++ [path]) = appendPath (blockOf paths) path := by
  rw [blockOf, List.foldl_append]
  rfl

theorem fullBlocks_of_room {paths : List Str} (h : blockSize = 0 ∨ paths.length < blockSize) :
    fullBlocks blockSize paths = [] := by
  rw [fullBlocks, List.filter_eq_nil_iff]
  intro block hblock
  rw [decide_eq_true_iff]
  rcases h with rfl | h
  · rw [blocksOf, dif_pos (.inl rfl)] at hblock
    cases hblock
  · by_cases hnil : paths = []
    · rw [hnil, blocksOf_nil] at hblock
      cases hblock
    · rw [blocksOf_of_length_lt h hnil, List.mem_singleton] at hblock
      rw [hblock]
      exact Nat.ne_of_lt h

theorem fullBlocks_append (hpos : 0 < blockSize) {block : List Str}
    (hblock : block.length = blockSize) (paths : List Str) :
    fullBlocks blockSize (block ++ paths) = block :: fullBlocks blockSize paths := by
  rw [fullBlocks, blocksOf_append hpos hblock]
  exact List.filter_cons_of_pos (decide_eq_true hblock)

/-- A run samples from the blocks that its paths make with those before. -/
theorem Sampled.run {blocks rest : List Str} (paths : List Str)
    (h : Sampled blocksToKeep blockSize draw blocks rest builder)
    (hroom : blockSize = 0 ∨ rest.length < blockSize) :
    ∃ last rest', paths.foldlM (addFile draw) builder = .ok last ∧
      Sampled blocksToKeep blockSize draw
        (blocks ++ (fullBlocks blockSize (rest ++ paths)).map blockOf) rest' last := by
  induction paths generalizing builder blocks rest with
  | nil =>
      rw [List.append_nil, fullBlocks_of_room hroom, List.map_nil, List.append_nil]
      exact ⟨builder, rest, rfl, h⟩
  | cons path paths ih =>
      set added : DictionaryBuilder := { builder with
        currentBlock :=
          if builder.keepCurrentBlock then appendPath builder.currentBlock path
          else builder.currentBlock
        numFilesInBlock := builder.numFilesInBlock + 1 } with hadded
      have hlength : (rest ++ [path]).length = rest.length + 1 := by
        rw [List.length_append, List.length_singleton]
      have hsampled : Sampled blocksToKeep blockSize draw blocks (rest ++ [path]) added := by
        refine ⟨h.toKeep, h.size, h.blockNum, ?_, h.sampledBlocks, h.lengths, fun hkeep => ?_,
          h.keep, h.slot⟩
        · rw [hlength, ← h.count]
        · rw [blockOf_append, ← h.currentBlock hkeep]
          exact if_pos hkeep
      have hjoin : rest ++ path :: paths = (rest ++ [path]) ++ paths := by
        rw [List.append_assoc, List.singleton_append]
      have hstep : addFile draw builder path =
          if added.numFilesInBlock = added.blockSize then added.flushBlock draw
          else .ok added := rfl
      rw [List.foldlM_cons, hstep, hsampled.count, hsampled.size, hjoin]
      by_cases hfull : (rest ++ [path]).length = blockSize
      · obtain ⟨next, hnext, hflushed⟩ := hsampled.flushBlock
        have hpos : 0 < blockSize := by omega
        obtain ⟨last, rest', hlast, hrun⟩ := ih hflushed (.inr hpos)
        rw [if_pos hfull, hnext, fullBlocks_append hpos hfull, List.map_cons]
        refine ⟨last, rest', hlast, ?_⟩
        rwa [List.append_assoc, List.singleton_append, List.nil_append] at hrun
      · obtain ⟨last, rest', hlast, hrun⟩ := ih hsampled (by omega)
        rw [if_neg hfull]
        exact ⟨last, rest', hlast, hrun⟩

theorem sortBlocks_perm (blocks : List Str) : (sortBlocks blocks).Perm blocks :=
  List.mergeSort_perm blocks _

/-- Only whole blocks of the input are sampled. -/
theorem Sampled.mem {blocks rest : List Str}
    (h : Sampled blocksToKeep blockSize draw blocks rest builder) {block : Str}
    (hblock : block ∈ builder.trainingBlocks) : block ∈ blocks := by
  apply Reservoir.mem_of_mem_sample (max blocksToKeep 1) (slotOf blocksToKeep draw)
  rw [← sampleOf, ← h.sampledBlocks]
  exact (sortBlocks_perm _).mem_iff.mp hblock

theorem Sampled.matchingSamples_iff {blocks rest : List Str}
    (h : Sampled blocksToKeep blockSize draw blocks rest builder) :
    MatchingSamples builder ↔ (0 < blocksToKeep ∨ blocks = []) ∧
      (sortBlocks (sampleOf blocksToKeep draw blocks)).map List.length =
        (sampleOf blocksToKeep draw blocks).map List.length := by
  have hsize : builder.sampledBlocks.length = min blocks.length (max blocksToKeep 1) := by
    rw [h.sampledBlocks, sampleOf, Reservoir.length_sample]
  rw [← h.sampledBlocks, ← h.lengths]
  constructor
  · rintro ⟨-, hmost, hsizes⟩
    refine ⟨?_, ?_⟩
    · rw [hsize, h.toKeep] at hmost
      rw [← List.length_eq_zero_iff]
      omega
    · apply List.ext_getElem?
      intro i
      rw [List.getElem?_map, hsizes, trainingBlocks]
  · rintro ⟨hkeep, hsizes⟩
    refine ⟨by rw [h.lengths, List.length_map], ?_, fun i => ?_⟩
    · rw [hsize, h.toKeep]
      rw [← List.length_eq_zero_iff] at hkeep
      omega
    · rw [trainingBlocks, ← hsizes, List.getElem?_map]

/-- Training gets matching samples exactly if the sizes of the sampled blocks come in the same
order when the blocks are sorted. -/
theorem addFiles_matchingSamples_iff (blocksToKeep blockSize : ℕ) (draw : ℕ → ℕ)
    (paths : List Str) : ∃ builder,
      paths.foldlM (addFile draw) { blocksToKeep := blocksToKeep, blockSize := blockSize } =
        .ok builder ∧
      builder.sampledBlocks =
        sampleOf blocksToKeep draw ((fullBlocks blockSize paths).map blockOf) ∧
      (MatchingSamples builder ↔ (0 < blocksToKeep ∨ fullBlocks blockSize paths = []) ∧
        (sortBlocks builder.sampledBlocks).map List.length =
          builder.sampledBlocks.map List.length) := by
  have hstart : Sampled blocksToKeep blockSize draw [] []
      { blocksToKeep := blocksToKeep, blockSize := blockSize } := sampled_start draw
  obtain ⟨builder, rest, hrun, hsampled⟩ := hstart.run paths (Nat.eq_zero_or_pos blockSize)
  rw [List.nil_append, List.nil_append] at hsampled
  refine ⟨builder, hrun, hsampled.sampledBlocks, ?_⟩
  rw [hsampled.matchingSamples_iff, List.map_eq_nil_iff, hsampled.sampledBlocks]

end Reservoir

section Examples

/-- The shorter path comes later and is sorted to the front. -/
theorem shorterPathLater_not_matching : ∃ builder,
    [ascii "bb", ascii "a"].foldlM (addFile fun n => n)
      { blocksToKeep := 1000, blockSize := 1 } = .ok builder ∧ ¬MatchingSamples builder := by
  refine ⟨_, rfl, fun h => ?_⟩
  have hsort : sortBlocks [ascii "bb", ascii "a"] = [ascii "a", ascii "bb"] := by
    have hlt : ascii "a" < ascii "bb" := by decide +kernel
    simp [sortBlocks, List.mergeSort, List.MergeSort.Internal.splitInTwo, hlt]
  have hfirst : some 2 = (sortBlocks [ascii "bb", ascii "a"])[0]?.map List.length := h.sizes 0
  rw [hsort] at hfirst
  exact absurd hfirst (by decide)

end Examples

end DictionaryBuilder

end Flocate
