import Udpcast.Contents
import Udpcast.SendData.Acks
import Udpcast.SendData.Cuts

/-!
# The configuration and the slice size

`run_sender` adjusts the slice sizes of the command line, `spawn_net_sender` chooses the size to
start with and limits it; acks let it grow, and new rounds of a slice with losses let it shrink.
-/

namespace Udpcast.SendData

open Sender

/-! ### The command line (sender.rs:175-360) -/

/-- `s.parse::<u32>()` -/
def parseU32 (s : List Char) : Option ℕ :=
  let digits := if s.head? = some '+' then s.tail else s
  if digits ≠ [] ∧ digits.all Char.isDigit then
    checkU32 (digits.foldl (fun n c => 10 * n + (c.toNat - '0'.toNat)) 0)
  else none

/-- The parts before and after the first `c`: `s.find(c)`. -/
def splitAtChar (c : Char) (s : List Char) : Option (List Char × List Char) :=
  match s.span (· ≠ c) with
  | (before, _ :: after) => some (before, after)
  | (_, []) => none

/-- `parse_fec_spec` (sender.rs:179-207): stripes, redundancy and stripe size. -/
def parseFecSpec (spec : List Char) : Option (ℕ × ℕ × ℕ) := do
  let (stripes, rest) ← match splitAtChar 'x' spec with
    | some (before, after) => (parseU32 before).map fun s => (s, after)
    | none => some (8, spec)
  let (redundancy, stripesize) ← match splitAtChar '/' rest with
    | some (before, after) => do some (← parseU32 before, ← parseU32 after)
    | none => (parseU32 rest).map fun r => (r, 128)
  some (stripes, redundancy, stripesize)

/-- `Cli`, with the options that the configuration of the main loop is made from. -/
structure Cli where
  blockSize : ℕ
  minSliceSize : ℕ
  defaultSliceSize : Option ℕ
  maxSliceSize : ℕ
  asyncMode : Bool
  halfDuplex : Bool
  fullDuplex : Bool
  fec : Option (List Char)
  retriesUntilDrop : ℤ

namespace Cli

variable (cli : Cli)

/-- `min_slice_size` and `max_slice_size` (sender.rs:299-304). -/
def minSize : ℕ := if cli.minSliceSize < 1 then 1 else cli.minSliceSize
def maxSize : ℕ := if cli.maxSliceSize < cli.minSize then cli.minSize else cli.maxSliceSize

/-- `default_slice_size`, where zero stands for none (sender.rs:297, 305-312). -/
def defaultSize : ℕ :=
  let size := cli.defaultSliceSize.getD 0
  if size ≠ 0 then
    let size := if size < cli.minSize then cli.minSize else size
    if size > cli.maxSize then cli.maxSize else size
  else size

/-- The flags that the main loop reads (sender.rs:223-237, 264). -/
def flags : ℕ :=
  let flags := if cli.asyncMode then flagAsync ||| flagSn else 0
  let flags := if cli.halfDuplex then (flags &&& (2 ^ 32 - 1 - flagSn)) ||| flagNotSn else flags
  let flags := if cli.fullDuplex then flags ||| flagSn else flags
  if cli.fec.isSome then flags ||| flagFec else flags

/-- `fec_stripes`, `fec_redundancy` and `fec_stripesize` (sender.rs:256-271). -/
def fecSpec : Option (ℕ × ℕ × ℕ) :=
  match cli.fec with
  | some spec => parseFecSpec spec
  | none => some (0, 0, 0)

end Cli

/-- The `NetConfig` that `run_sender` hands to the main loop (sender.rs:260-360). -/
def runSender (cli : Cli) : Option NetConfig := do
  let (stripes, redundancy, stripesize) ← cli.fecSpec
  if h : 0 < cli.blockSize - cli.blockSize % 4 then
    some
      { blockSize := cli.blockSize - cli.blockSize % 4
        sliceSize := if cli.defaultSize > 0 then cli.defaultSize else 16
        flags := cli.flags
        defaultSliceSize := cli.defaultSize
        maxSliceSize := cli.maxSize
        retriesUntilDrop := cli.retriesUntilDrop
        discovery := .doubling
        fecStripes := stripes
        fecRedundancy := redundancy
        fecStripesize := stripesize
        blockSize_pos := h }
  else none

example : parseFecSpec ['4', 'x', '2', '/', '6', '4'] = some (4, 2, 64) := by decide

/-! ### How the slice size moves -/

/-- The configuration changes when a slice is acked or gets a REQACK. -/
inductive Resized (x : Sender) (c' : NetConfig) : Prop
  | same : c' = x.config → Resized x c'
  | grown : growSliceSize x.config = some c' → Resized x c'
  | reduced {i : Fin 8} {s : Slice} : (x.slices i).inFlight → s.bytes = (x.slices i).bytes →
      c' = reduceSliceSize x.config s → Resized x c'

theorem StepTo.resized {x x' : Sender} {a : Action} (hs : StepTo x a x') (hc : Control x) :
    Resized x x'.config := by
  cases hs with
  | arrive _ _ => exact Resized.same rfl
  | enqueue _ => exact Resized.same rfl
  | @dispatch m rest _ _ =>
    obtain ⟨-, _, _, _, heq⟩ := handleMessage_frame { x with msgs := rest } m
    exact Resized.same (by rw [heq])
  | goto _ => exact Resized.same rfl
  | retain _ => exact Resized.same rfl
  | acked _ _ hconfig _ => exact Resized.grown hconfig
  | rexmit _ _ => exact Resized.same rfl
  | @reqack i rest nr fr rxmitId hphase _ =>
    have hcur := hc.current (Or.inr (Or.inr (Or.inl ⟨nr, fr, hphase⟩)))
    exact Resized.reduced (s := (bumped x i rxmitId).slices i) (Or.inr hcur)
      (by rw [bumped_slices_self]) rfl
  | asyncRound hasync => exact absurd hasync hc.not_asyncRound
  | form _ _ _ _ _ _ _ => exact Resized.same rfl
  | finish _ => exact Resized.same rfl
  | encode _ _ => exact Resized.same rfl
  | @transmit i ds hphase _ _ =>
    exact Resized.reduced (s := (transmitted x i ds).slices i) (Or.inl (hc.fresh i (Or.inr hphase)))
      (by rw [transmitted_slices_self]) rfl
  | transmitAsync _ _ hconfig _ _ => exact Resized.grown hconfig
  | @timeout i rest rxmitId hphase hpending =>
    have hcur := hc.current (Or.inr (Or.inr (Or.inr ⟨hphase, hpending⟩)))
    exact Resized.reduced (s := (bumped { x with db := afterDrop x i } i rxmitId).slices i)
      (Or.inr hcur) (by rw [bumped_slices_self]) rfl
  | allDropped _ _ => exact Resized.same rfl
  | readerWait _ hw =>
    rcases readerWait_frame hw with rfl | ⟨_, _, rfl⟩
    · exact Resized.same rfl
    · exact Resized.same rfl
  | readEnd _ => exact Resized.same rfl
  | read _ _ => exact Resized.same rfl
  | readerConsumed _ _ => exact Resized.same rfl
  | readerWrite _ hw =>
    obtain rfl := Fifo.writeAt_frame hw
    exact Resized.same rfl
  | readerProduced _ _ => exact Resized.same rfl

theorem Resized.maxSliceSize {x : Sender} {c' : NetConfig} (h : Resized x c') :
    c'.maxSliceSize = x.config.maxSliceSize := by
  cases h with
  | same heq => rw [heq]
  | grown hg =>
    obtain ⟨_, _, rfl⟩ := growSliceSize_eq hg
    rfl
  | @reduced _ s _ _ heq =>
    obtain ⟨_, _, heq'⟩ := reduceSliceSize_eq x.config s
    rw [heq, heq']

/-- The slice size is between `lo` and `hi` and stays there: it does not grow above `hi`, and a new
round does not take it to a floor of 32 outside. -/
structure Limits (lo hi : ℕ) (c : NetConfig) : Prop where
  lo_max : lo ≤ c.maxSliceSize
  grow : c.maxSliceSize ≤ hi ∨ c.hasFlag flagSn = true ∨ (c.discovery = .doubling → c.sliceSize ≤ 3)
  reduce : c.hasFlag flagAsync = true ∨ hi ≤ 1 ∨ lo ≤ 32 ∧ 32 ≤ hi
  lo_size : lo ≤ c.sliceSize
  size_hi : c.sliceSize ≤ hi

section Limits

variable {lo hi : ℕ} {c c' : NetConfig}

theorem Limits.congr (h : Limits lo hi c) (hflags : c'.flags = c.flags)
    (hmax : c'.maxSliceSize = c.maxSliceSize)
    (hgrow : c'.discovery = .doubling → c.discovery = .doubling ∧
      c'.sliceSize ≤ c.sliceSize + c.sliceSize / 4) (hlo : lo ≤ c'.sliceSize)
    (hhi : c'.sliceSize ≤ hi) : Limits lo hi c' where
  lo_max := by rw [hmax]; exact h.lo_max
  grow := by
    rw [hmax, hasFlag_congr hflags]
    rcases h.grow with hle | hsn | hsmall
    · exact Or.inl hle
    · exact Or.inr (Or.inl hsn)
    · refine Or.inr (Or.inr fun hd => ?_)
      obtain ⟨hd, hle⟩ := hgrow hd
      have := hsmall hd
      omega
  reduce := by rw [hasFlag_congr hflags]; exact h.reduce
  lo_size := hlo
  size_hi := hhi

theorem Limits.grown (h : Limits lo hi c) (hg : growSliceSize c = some c') : Limits lo hi c' := by
  have hlo := h.lo_size
  have hhi := h.size_hi
  rw [growSliceSize] at hg
  split at hg
  · rename_i hdoubling
    have hgrow : c.maxSliceSize ≤ hi ∨ c.sliceSize ≤ 3 := by
      rcases h.grow with hle | hsn | hsmall
      · exact Or.inl hle
      · rw [hdoubling.1] at hsn
        cases hsn
      · exact Or.inr (hsmall hdoubling.2)
    obtain ⟨size, hsize, hg⟩ := Option.bind_eq_some_iff.mp hg
    rw [checkU32] at hsize
    split at hsize
    · obtain rfl := Option.some.inj hsize
      obtain rfl := Option.some.inj hg
      split
      · rename_i hge
        refine h.congr rfl rfl (fun hd => by cases hd) h.lo_max ?_
        show c.maxSliceSize ≤ hi
        omega
      · rename_i hlt
        refine h.congr rfl rfl (fun hd => ⟨hd, le_rfl⟩)
          (show lo ≤ c.sliceSize + c.sliceSize / 4 by omega) ?_
        show c.sliceSize + c.sliceSize / 4 ≤ hi
        omega
    · cases hsize
  · obtain rfl := Option.some.inj hg
    exact h

theorem Limits.reduced (h : Limits lo hi c) {s : Slice} (hs : s.bytes ≤ c.blockSize * hi) :
    Limits lo hi (reduceSliceSize c s) := by
  have hlo := h.lo_size
  have hhi := h.size_hi
  rw [reduceSliceSize]
  split
  · rename_i hred
    obtain ⟨hsync, -, hgood, hlt⟩ := hred
    have hblocks : s.lastGoodBlock * c.blockSize < hi * c.blockSize := by
      have := (lt_blocksIn c.blockSize_pos).mp hlt
      rw [Nat.mul_comm hi]
      omega
    have hgood' : s.lastGoodBlock < hi := Nat.lt_of_mul_lt_mul_right hblocks
    have hfloor : lo ≤ 32 ∧ 32 ≤ hi := by
      rcases h.reduce with ha | hone | hfloor
      · rw [hsync] at ha
        cases ha
      · omega
      · exact hfloor
    generalize hsize : (if s.lastGoodBlock < c.sliceSize / 2 then c.sliceSize / 2
      else s.lastGoodBlock) = size
    have hle : size ≤ hi := by
      rw [← hsize]
      split
      · omega
      · omega
    refine h.congr rfl rfl (fun hd => by cases hd)
      (show lo ≤ if size < 32 then 32 else size from ?_) ?_
    · split
      · exact hfloor.1
      · omega
    · show (if size < 32 then 32 else size) ≤ hi
      split
      · exact hfloor.2
      · exact hle
  · exact h

end Limits

/-- The slices that have been cut are within the limits, too. -/
structure Sizes (lo hi : ℕ) (x : Sender) : Prop where
  limits : Limits lo hi x.config
  cuts : ∀ n ∈ x.cuts, n ≤ x.config.blockSize * hi

theorem Sizes.step {lo hi : ℕ} {x x' : Sender} {a : Action} (h : Sizes lo hi x) (hc : Control x)
    (hcut : Cut x) (hs : StepTo x a x') : Sizes lo hi x' := by
  have hm := hs.moves hc
  have hblock := hm.blockSize
  refine ⟨?_, fun n hn => ?_⟩
  · cases hs.resized hc with
    | same heq =>
      rw [heq]
      exact h.limits
    | grown hg => exact h.limits.grown hg
    | @reduced i s hi hbytes heq =>
      obtain ⟨h0, hlt, hb, -⟩ := hcut.slot i hi
      rw [heq]
      refine h.limits.reduced ?_
      rw [hbytes, hb, List.getD_eq_getElem _ _ (by omega)]
      exact h.cuts _ (List.getElem_mem _)
  · rw [hblock]
    cases hm with
    | kept _ _ hcuts _ _ _ _ _ _ _ _ =>
      rw [hcuts] at hn
      exact h.cuts n hn
    | formed _ _ hfrom heq =>
      rw [heq] at hn
      rcases List.mem_append.mp hn with hn | hn
      · exact h.cuts n hn
      · obtain rfl := List.mem_singleton.mp hn
        exact hfrom.le_slice.trans (Nat.mul_le_mul_left _ h.limits.size_hi)
    | wrote _ _ heq =>
      rw [heq] at hn
      exact h.cuts n hn

/-! ### The limits of the command line -/

namespace NetConfig

variable (c : NetConfig)

/-- The limit that parity blocks set. -/
def capped (size : ℕ) : ℕ := if c.hasFlag flagFec then min size (128 * c.fecStripes) else size

/-- The slice size that the main loop starts with. -/
def initialSize : Option ℕ :=
  (if c.defaultSliceSize = 0 then c.autoSliceSize else some c.defaultSliceSize).map fun size =>
    min (c.capped size) (c.capped c.maxSliceSize)

/-- The first slice has one block. -/
def oneBlock : Prop :=
  c.defaultSliceSize = 1 ∨ c.maxSliceSize = 1 ∨ c.defaultSliceSize = 0 ∧ c.autoSliceSize = some 1

end NetConfig

/-- The size to start with when none is given, the limit for parity blocks and the floor of 32
blocks are within the limits of the command line. -/
structure SizesFit (cli : Cli) (c : NetConfig) : Prop where
  start : c.defaultSliceSize = 0 → ∀ size, c.autoSliceSize = some size → cli.minSize ≤ size
  fec : c.hasFlag flagFec = true → cli.minSize ≤ 128 * c.fecStripes
  floor : c.hasFlag flagAsync = true ∨ c.oneBlock ∨ cli.minSize ≤ 32 ∧ 32 ≤ c.maxSliceSize

theorem start_sizes {config : NetConfig} {db : ParticipantsDb} {x : Sender}
    (h : Sender.start config db = some x) :
    x.config.maxSliceSize = config.capped config.maxSliceSize ∧
      ∃ size, x.config.sliceSize = min (config.capped size) x.config.maxSliceSize ∧
        (config.defaultSliceSize = 0 ∧ config.autoSliceSize = some size ∨
          config.defaultSliceSize ≠ 0 ∧ size = config.defaultSliceSize) := by
  simp only [Sender.start, Option.bind_eq_bind, Option.bind_eq_some_iff] at h
  obtain ⟨fifo, -, nrFec, -, c₁, h₁, c₂, h₂, h⟩ := h
  obtain rfl := Option.some.inj h
  have hfirst : ∃ size d, c₁ = { config with sliceSize := size, discovery := d } ∧
      (config.defaultSliceSize = 0 ∧ config.autoSliceSize = some size ∨
        config.defaultSliceSize ≠ 0 ∧ size = config.defaultSliceSize) := by
    rw [NetConfig.firstSliceSize] at h₁
    split at h₁
    · rename_i hnone
      obtain ⟨size, hsize, rfl⟩ := Option.map_eq_some_iff.mp h₁
      exact ⟨size, _, rfl, Or.inl ⟨hnone, hsize⟩⟩
    · rename_i hsome
      exact ⟨_, _, (Option.some.inj h₁).symm, Or.inr ⟨hsome, rfl⟩⟩
  obtain ⟨size, d, rfl, hsize⟩ := hfirst
  have hcap : c₂.sliceSize = config.capped size ∧
      c₂.maxSliceSize = config.capped config.maxSliceSize := by
    rw [NetConfig.limitFec] at h₂
    split at h₂
    · rename_i hfec
      have hfec : config.hasFlag flagFec = true := hfec
      obtain ⟨limit, hlimit, rfl⟩ := Option.map_eq_some_iff.mp h₂
      rw [checkU32] at hlimit
      split at hlimit
      · obtain rfl := Option.some.inj hlimit
        rw [NetConfig.capped, NetConfig.capped, if_pos hfec, if_pos hfec]
        refine ⟨?_, ?_⟩
        · show (if size > 128 * config.fecStripes then 128 * config.fecStripes else size) = _
          split <;> omega
        · show (if config.maxSliceSize > 128 * config.fecStripes then 128 * config.fecStripes
            else config.maxSliceSize) = _
          split <;> omega
      · cases hlimit
    · rename_i hfec
      have hfec : ¬ config.hasFlag flagFec = true := hfec
      obtain rfl := Option.some.inj h₂
      rw [NetConfig.capped, NetConfig.capped, if_neg hfec, if_neg hfec]
      exact ⟨rfl, rfl⟩
  have hlimited : c₂.limitSliceSize.maxSliceSize = c₂.maxSliceSize ∧
      c₂.limitSliceSize.sliceSize = min c₂.sliceSize c₂.maxSliceSize := by
    rw [NetConfig.limitSliceSize]
    split
    · rename_i hlt
      exact ⟨rfl, (Nat.min_eq_right (Nat.le_of_lt hlt)).symm⟩
    · rename_i hlt
      exact ⟨rfl, (Nat.min_eq_left (Nat.le_of_not_lt hlt)).symm⟩
  refine ⟨hlimited.1.trans hcap.2, size, ?_, hsize⟩
  show c₂.limitSliceSize.sliceSize = min _ c₂.limitSliceSize.maxSliceSize
  rw [hlimited.2, hlimited.1, hcap.1]

theorem start_initialSize {config : NetConfig} {db : ParticipantsDb} {x : Sender}
    (h : Sender.start config db = some x) : config.initialSize = some x.config.sliceSize := by
  obtain ⟨hmax, size, hsize, ⟨hnone, hauto⟩ | ⟨hsome, rfl⟩⟩ := start_sizes h
  · rw [NetConfig.initialSize, if_pos hnone, hauto, hsize, hmax]
    rfl
  · rw [NetConfig.initialSize, if_neg hsome, hsize, hmax]
    rfl

theorem start_cuts {config : NetConfig} {db : ParticipantsDb} {x : Sender}
    (h : Sender.start config db = some x) : x.cuts = [] := by
  simp only [Sender.start, Option.bind_eq_bind, Option.bind_eq_some_iff] at h
  obtain ⟨fifo, -, nrFec, -, c₁, -, c₂, -, h⟩ := h
  obtain rfl := Option.some.inj h
  rfl

theorem Cli.defaultSize_eq (cli : Cli) :
    cli.defaultSize = 0 ∨ cli.minSize ≤ cli.defaultSize ∧ cli.defaultSize ≤ cli.maxSize := by
  have hle : cli.minSize ≤ cli.maxSize := by
    rw [Cli.maxSize]
    split <;> omega
  dsimp only [Cli.defaultSize]
  split
  · right
    split
    · split <;> omega
    · split <;> omega
  · left
    omega

theorem runSender_eq {cli : Cli} {c : NetConfig} (h : runSender cli = some c) :
    c.flags = cli.flags ∧ c.defaultSliceSize = cli.defaultSize ∧ c.maxSliceSize = cli.maxSize ∧
      c.blockSize = cli.blockSize - cli.blockSize % 4 := by
  simp only [runSender, Option.bind_eq_bind, Option.bind_eq_some_iff] at h
  obtain ⟨p, -, h⟩ := h
  split at h
  · obtain rfl := Option.some.inj h
    exact ⟨rfl, rfl, rfl, rfl⟩
  · cases h

theorem sizes_start {cli : Cli} {config : NetConfig} {db : ParticipantsDb} {x : Sender}
    (hrun : runSender cli = some config) (hfit : SizesFit cli config)
    (h : Sender.start config db = some x) :
    ∃ hi ≤ x.config.maxSliceSize, Sizes cli.minSize hi x := by
  obtain ⟨hmax, size, hsize, hcase⟩ := start_sizes h
  obtain ⟨hflags, hdefault, hcliMax, -⟩ := runSender_eq hrun
  have hminPos : 1 ≤ cli.minSize := by
    rw [Cli.minSize]
    split <;> omega
  have hminMax : cli.minSize ≤ config.maxSliceSize := by
    rw [hcliMax, Cli.maxSize]
    split <;> omega
  have hcap : ∀ n, cli.minSize ≤ n → cli.minSize ≤ config.capped n := by
    intro n hn
    rw [NetConfig.capped]
    split
    · exact Nat.le_min.mpr ⟨hn, hfit.fec ‹_›⟩
    · exact hn
  have hcapLe : ∀ n, config.capped n ≤ n := by
    intro n
    rw [NetConfig.capped]
    split
    · exact Nat.min_le_left _ _
    · exact le_rfl
  have hminSize : cli.minSize ≤ size := by
    rcases hcase with ⟨hnone, hauto⟩ | ⟨hsome, rfl⟩
    · exact hfit.start hnone size hauto
    · rw [hdefault] at hsome ⊢
      rcases cli.defaultSize_eq with hzero | hsizes
      · exact absurd hzero hsome
      · exact hsizes.1
  have hlo : cli.minSize ≤ x.config.sliceSize := by
    rw [hsize, hmax]
    exact Nat.le_min.mpr ⟨hcap size hminSize, hcap _ hminMax⟩
  have hloMax : cli.minSize ≤ x.config.maxSliceSize := hmax ▸ hcap _ hminMax
  have hcuts : ∀ hi, ∀ n ∈ x.cuts, n ≤ x.config.blockSize * hi := by
    intro hi n hn
    rw [start_cuts h] at hn
    cases hn
  have hasync : x.config.hasFlag flagAsync = config.hasFlag flagAsync :=
    hasFlag_congr (start_flags h) flagAsync
  rcases hfit.floor with ha | hone | hfloor
  · exact ⟨x.config.maxSliceSize, le_rfl,
      ⟨hloMax, Or.inl le_rfl, Or.inl (hasync.trans ha), hlo, hsize ▸ Nat.min_le_right _ _⟩, hcuts _⟩
  · have hle : x.config.sliceSize ≤ 1 := by
      rw [hsize, hmax]
      rcases hone with hone | hone | ⟨hnone, hauto⟩
      · rcases hcase with ⟨hnone, -⟩ | ⟨-, rfl⟩
        · omega
        · exact (Nat.min_le_left _ _).trans ((hcapLe _).trans (by omega))
      · exact (Nat.min_le_right _ _).trans ((hcapLe _).trans (by omega))
      · rcases hcase with ⟨-, hauto'⟩ | ⟨hsome, -⟩
        · rw [hauto] at hauto'
          obtain rfl := Option.some.inj hauto'
          exact (Nat.min_le_left _ _).trans (hcapLe _)
        · exact absurd hnone hsome
    exact ⟨1, hminPos.trans hloMax,
      ⟨hloMax, Or.inr (Or.inr fun _ => by omega), Or.inr (Or.inl le_rfl), hlo, hle⟩, hcuts _⟩
  · have hfloorMax : 32 ≤ x.config.maxSliceSize := by
      rw [hmax, NetConfig.capped]
      split
      · have := hfit.fec ‹_›
        omega
      · exact hfloor.2
    exact ⟨x.config.maxSliceSize, le_rfl,
      ⟨hloMax, Or.inl le_rfl, Or.inr (Or.inr ⟨hfloor.1, hfloorMax⟩), hlo,
        hsize ▸ Nat.min_le_right _ _⟩, hcuts _⟩

/-- Blocks of four bytes, and the default values of the other options. -/
def defaultCli : Cli where
  blockSize := 4
  minSliceSize := 16
  defaultSliceSize := none
  maxSliceSize := 1024
  asyncMode := false
  halfDuplex := false
  fullDuplex := false
  fec := none
  retriesUntilDrop := 200

/-- A slice of 130 blocks that nobody asks for again, and one of two blocks of which block 0 is asked
for: the slice size grows to 162 and is halved. -/
def growAndHalve : List Action :=
  readBytes (List.replicate 520 0) ++ readBytes [1, 2, 3, 4, 5, 6, 7, 8] ++ [.readerWait, .read []] ++
    List.replicate 14 .advance ++ message (.ok 0 0) ++ message (.ok 0 1) ++
    [.wake, .dispatch, .dispatch] ++ List.replicate 17 .advance ++
    message (.retransmit 1 0 (Bitmap.insert 0 1) 0) ++
    message (.retransmit 1 1 (Bitmap.insert 0 1) 0) ++ [.wake, .dispatch, .dispatch] ++
    List.replicate 13 .advance

end Udpcast.SendData
