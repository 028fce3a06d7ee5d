import Mathlib.Data.Int.ModEq
import Mathlib.Tactic.Linarith
import Mathlib.Tactic.Ring
import Udpcast.Lib.Run

/-!
# The bitrate governor (rate.rs:23-57)

`wait` is called before a packet is sent.  It takes the bits of the time since `date_us` out of the
queue, moves the date by the time that they need, and sleeps when the queue is long.
-/

namespace Udpcast.Rate

/-- The result of `u64` and `i64` arithmetic, and the casts between them. -/
def checkU64 (n : ℕ) : Option ℕ := if n < 2 ^ 64 then some n else none
def checkI64 (x : ℤ) : Option ℤ := if -2 ^ 63 ≤ x ∧ x < 2 ^ 63 then some x else none
def asU64 (x : ℤ) : ℕ := (x % 2 ^ 64).toNat
def asI64 (n : ℕ) : ℤ := Int.bmod n (2 ^ 64)

/-- `MaxBitrateData` (rate.rs:23-27). -/
structure MaxBitrateData where
  dateUs : ℕ
  bitrate : ℕ
  queueSize : ℤ

/-- The time to sleep (rate.rs:50-56), zero for none. -/
def sleepFor (sleepTime queueSize : ℤ) : Option ℤ :=
  if sleepTime > 40000 ∨ queueSize ≥ 100000 then do
    let st ← checkI64 (sleepTime - 10000)
    let st := st - st.tmod 10000
    some (if st > 0 then st else 0)
  else some 0

/-- `wait` (rate.rs:36-58) at the clock reading `now`, with the time that it sleeps. -/
def MaxBitrateData.wait (g : MaxBitrateData) (now : ℕ) (size : ℤ) : Option (MaxBitrateData × ℤ) :=
  if g.bitrate = 0 then some (g, 0)
  else do
    let elapsed := now - g.dateUs
    let bits := (← checkU64 (elapsed * g.bitrate)) / 1000000
    let size ← checkI64 (size + 28)
    if bits ≥ asU64 (← checkI64 (g.queueSize * 8)) then
      some ({ g with queueSize := size, dateUs := now }, 0)
    else do
      let queueSize ← checkI64 (g.queueSize - asI64 (bits / 8))
      let dateUs ← checkU64 (g.dateUs + (← checkU64 (bits * 1000000)) / g.bitrate)
      let sleepTime := (← checkI64 (queueSize * 8 * 1000000)).tdiv (asI64 g.bitrate)
      let st ← sleepFor sleepTime queueSize
      some ({ g with queueSize := (← checkI64 (queueSize + size)), dateUs := dateUs }, st)

/-! ### Calls -/

/-- A call for a packet of `size` bytes at the clock reading `now`, that returns at `ret`. -/
structure Call where
  now : ℕ
  ret : ℕ
  size : ℕ

/-- The governor, the clock and the volume that has been let through. -/
structure Governed where
  data : MaxBitrateData
  clock : ℕ
  volume : ℕ

/-- The clock does not run backwards, and a sleep is at least as long as asked for. -/
def call (s : Governed) (c : Call) : Option Governed :=
  if s.clock ≤ c.now ∧ c.now < 2 ^ 64 then do
    let (data, st) ← s.data.wait c.now c.size
    if c.now + st ≤ c.ret then
      some { data := data, clock := c.ret, volume := s.volume + (c.size + 28) }
    else none
  else none

/-- The governor as `add_max_bitrate` makes it (rate.rs:143-154). -/
def Governed.start (bitrate t₀ : ℕ) : Governed where
  data := { dateUs := t₀, bitrate := bitrate, queueSize := 0 }
  clock := t₀
  volume := 0

/-- The bits that may be sent in a time, and the time that they need. -/
def bitsIn (bitrate elapsed : ℕ) : ℕ := elapsed * bitrate / 1000000
def timeOf (bitrate bits : ℕ) : ℕ := bits * 1000000 / bitrate

/-- The date moves at least by the time of the bytes that leave the queue. -/
def RoundsDown (bitrate elapsed : ℕ) : Prop :=
  8000000 * (bitsIn bitrate elapsed / 8) ≤ bitrate * timeOf bitrate (bitsIn bitrate elapsed)

/-- A packet of at most `maxSize` bytes; the time since the date fits into the product, and the
queue is drained or the rounding does not favour it. -/
structure Meets (maxSize : ℕ) (s : Governed) (c : Call) : Prop where
  size : c.size ≤ maxSize
  elapsed : (c.now - s.data.dateUs) * s.data.bitrate < 2 ^ 64
  rounds : 8 * s.data.queueSize ≤ bitsIn s.data.bitrate (c.now - s.data.dateUs) ∨
    RoundsDown s.data.bitrate (c.now - s.data.dateUs)

/-! ### The arithmetic of a call -/

theorem checkU64_eq {n : ℕ} (h : n < 2 ^ 64) : checkU64 n = some n := if_pos h

theorem checkI64_eq {x : ℤ} (h₀ : 0 ≤ x) (h : x < 2 ^ 63) : checkI64 x = some x :=
  if_pos ⟨by omega, h⟩

theorem asU64_eq {x : ℤ} (h₀ : 0 ≤ x) (h : x < 2 ^ 63) : (asU64 x : ℤ) = x := by
  have hlt : x < 2 ^ 64 := by omega
  rw [asU64, Int.emod_eq_of_lt h₀ hlt]
  exact Int.toNat_of_nonneg h₀

theorem asI64_eq {n : ℕ} (h : n < 2 ^ 63) : asI64 n = (n : ℤ) := by
  refine Int.bmod_eq_of_le ?_ ?_
  · norm_num
  · norm_num
    omega

theorem sleepFor_eq {t q : ℤ} (ht₀ : 0 ≤ t) (ht : t < 2 ^ 63) :
    ∃ st, sleepFor t q = some st ∧ 0 ≤ st ∧ t ≤ st + 40000 := by
  have hmod : (t - 10000).tmod 10000 < 10000 := Int.tmod_lt_of_pos _ (by decide)
  rw [sleepFor]
  split
  · have hcheck : checkI64 (t - 10000) = some (t - 10000) := if_pos ⟨by omega, by omega⟩
    simp only [hcheck, Option.bind_eq_bind, Option.bind_some]
    split
    · exact ⟨_, rfl, by omega, by omega⟩
    · exact ⟨0, rfl, le_rfl, by omega⟩
  · exact ⟨0, rfl, le_rfl, by omega⟩

theorem bitsIn_bounds (b elapsed : ℕ) :
    1000000 * bitsIn b elapsed ≤ elapsed * b ∧ elapsed * b < 1000000 * bitsIn b elapsed + 1000000 ∧
      timeOf b (bitsIn b elapsed) ≤ elapsed := by
  have hdiv := Nat.div_add_mod (elapsed * b) 1000000
  have hmod := Nat.mod_lt (elapsed * b) (y := 1000000) (by decide)
  have hbits : 1000000 * bitsIn b elapsed ≤ elapsed * b := by
    rw [bitsIn]
    omega
  refine ⟨hbits, by rw [bitsIn]; omega, Nat.div_le_of_le_mul ?_⟩
  rw [Nat.mul_comm b]
  omega

section Wait

variable {d b now : ℕ} {q size : ℤ}

theorem wait_drained (hb : 0 < b) (helapsed : (now - d) * b < 2 ^ 64) (hq₀ : 0 ≤ q)
    (hq : q * 8 < 2 ^ 63) (hsize₀ : 0 ≤ size) (hsize : size + 28 < 2 ^ 63)
    (hdrained : 8 * q ≤ bitsIn b (now - d)) :
    MaxBitrateData.wait ⟨d, b, q⟩ now size = some (⟨now, b, size + 28⟩, 0) := by
  have hcast := asU64_eq (x := q * 8) (by omega) hq
  have hcond : bitsIn b (now - d) ≥ asU64 (q * 8) := by omega
  rw [MaxBitrateData.wait, if_neg (by simp only; omega)]
  simp only [checkU64_eq helapsed, checkI64_eq (by omega) hsize, checkI64_eq (by omega) hq,
    Option.bind_eq_bind, Option.bind_some]
  exact if_pos hcond

/-- What may be sent leaves the queue; all but 40 ms of the rest is slept for. -/
theorem wait_queued {bits : ℕ} (hbits : bitsIn b (now - d) = bits) (hb : 0 < b) (hb' : b < 2 ^ 63)
    (hd : d ≤ now) (hnow : now < 2 ^ 64) (helapsed : (now - d) * b < 2 ^ 64) (hq : q * 8 < 2 ^ 63)
    (hsize₀ : 0 ≤ size) (hsize : size + 28 < 2 ^ 63) (hqueued : bits < 8 * q)
    (hrest : (q - (bits / 8 : ℕ)) * 8 * 1000000 < 2 ^ 63)
    (hlast : q - (bits / 8 : ℕ) + (size + 28) < 2 ^ 63) :
    ∃ st : ℤ, 0 ≤ st ∧ (q - (bits / 8 : ℕ)) * 8 * 1000000 < b * (st + 40001) ∧
      sleepFor (((q - (bits / 8 : ℕ)) * 8 * 1000000).tdiv b) (q - (bits / 8 : ℕ)) = some st ∧
      MaxBitrateData.wait ⟨d, b, q⟩ now size =
        some (⟨d + timeOf b bits, b, q - (bits / 8 : ℕ) + (size + 28)⟩, st) := by
  have hrest₀ : 0 ≤ q - (bits / 8 : ℕ) := by omega
  have hcredit : asI64 (bits / 8) = ((bits / 8 : ℕ) : ℤ) := asI64_eq (by omega)
  have hbpos : (0 : ℤ) < b := by omega
  have hcast := asU64_eq (x := q * 8) (by omega) hq
  have hcond : ¬ bits ≥ asU64 (q * 8) := by omega
  obtain ⟨hle, -, htime⟩ := bitsIn_bounds b (now - d)
  rw [hbits] at hle htime
  have hunfold : (now - d) * b / 1000000 = bits := hbits
  have htake : checkI64 (q - (bits / 8 : ℕ)) = some (q - (bits / 8 : ℕ)) :=
    checkI64_eq hrest₀ (by omega)
  generalize htaken : q - (bits / 8 : ℕ) = rest at *
  obtain ⟨st, hsleep, hst₀, hst⟩ := sleepFor_eq (t := (rest * 8 * 1000000).tdiv b) (q := rest)
    (Int.tdiv_nonneg (by omega) hbpos.le) (lt_of_le_of_lt (Int.tdiv_le_self _ (by omega)) hrest)
  refine ⟨st, hst₀, ?_, hsleep, ?_⟩
  · have hlt := Int.lt_tdiv_add_one_mul_self (rest * 8 * 1000000) hbpos
    calc rest * 8 * 1000000 < ((rest * 8 * 1000000).tdiv b + 1) * b := hlt
      _ ≤ (st + 40001) * b := mul_le_mul_of_nonneg_right (by omega) hbpos.le
      _ = b * (st + 40001) := mul_comm _ _
  · have hproduct : checkU64 (bits * 1000000) = some (bits * 1000000) := checkU64_eq (by omega)
    have hdate : checkU64 (d + bits * 1000000 / b) = some (d + timeOf b bits) :=
      checkU64_eq (lt_of_le_of_lt (Nat.add_le_of_le_sub' hd htime) hnow)
    rw [MaxBitrateData.wait, if_neg (Nat.ne_of_gt hb)]
    refine Option.bind_eq_some_iff.mpr ⟨_, checkU64_eq helapsed, ?_⟩
    refine Option.bind_eq_some_iff.mpr ⟨_, checkI64_eq (by omega) hsize, ?_⟩
    refine Option.bind_eq_some_iff.mpr ⟨_, checkI64_eq (x := q * 8) (by omega) hq, ?_⟩
    simp only [hunfold]
    rw [if_neg hcond, hcredit, htaken]
    refine Option.bind_eq_some_iff.mpr ⟨_, htake, ?_⟩
    refine Option.bind_eq_some_iff.mpr ⟨_, hproduct, ?_⟩
    refine Option.bind_eq_some_iff.mpr ⟨_, hdate, ?_⟩
    refine Option.bind_eq_some_iff.mpr ⟨_, checkI64_eq (by omega) hrest, ?_⟩
    refine Option.bind_eq_some_iff.mpr ⟨st, by rw [asI64_eq hb']; exact hsleep, ?_⟩
    exact Option.bind_eq_some_iff.mpr ⟨_, checkI64_eq (by omega) hlast, rfl⟩

end Wait

/-! ### The bound -/

/-- What is queued leaves in time, but for 40 ms and a packet. -/
structure Governs (bitrate maxSize t₀ : ℕ) (s : Governed) : Prop where
  bitrate_eq : s.data.bitrate = bitrate
  queue_nonneg : 0 ≤ s.data.queueSize
  start_le : t₀ ≤ s.data.dateUs
  date_le : s.data.dateUs ≤ s.clock
  sent : 8000000 * ((s.volume : ℤ) - s.data.queueSize) ≤ bitrate * ((s.data.dateUs : ℤ) - t₀)
  queue : 8000000 * s.data.queueSize ≤ bitrate * ((s.clock : ℤ) - s.data.dateUs)
    + (40001 * bitrate + 8000000 * (maxSize + 28))

section Governs

variable {b maxSize t₀ : ℕ} {s s' : Governed} {c : Call}

/-- The queue at the call `c`, and what is left of it when the bits have been taken out. -/
theorem Governs.queue_le (h : Governs b maxSize t₀ s) (hclock : s.clock ≤ c.now) :
    8000000 * s.data.queueSize ≤ ((c.now - s.data.dateUs) * b : ℕ)
      + (40001 * b + 8000000 * (maxSize + 28)) := by
  have hdate := h.date_le
  have hqueue := h.queue
  have hle : (b : ℤ) * ((s.clock : ℤ) - s.data.dateUs) ≤ ((c.now - s.data.dateUs) * b : ℕ) := by
    rw [Nat.mul_comm, Nat.cast_mul]
    refine mul_le_mul_of_nonneg_left ?_ (Int.natCast_nonneg _)
    omega
  omega

theorem Governs.rest_lt (h : Governs b maxSize t₀ s) (hclock : s.clock ≤ c.now) :
    8000000 * (s.data.queueSize - (bitsIn b (c.now - s.data.dateUs) / 8 : ℕ))
      < 40001 * b + 8000000 * (maxSize + 29) := by
  have hqueue := h.queue_le hclock
  obtain ⟨-, hlt, -⟩ := bitsIn_bounds b (c.now - s.data.dateUs)
  generalize bitsIn b (c.now - s.data.dateUs) = bits at *
  omega

/-- A call that fits does not overflow: it finds the queue drained, or takes out what may be sent
and sleeps for all but 40 ms of the rest. -/
theorem Governs.wait_eq (h : Governs b maxSize t₀ s) (hb : 0 < b)
    (hroom : 40001 * b + 8000000 * (maxSize + 29) < 2 ^ 63) (hc : Meets maxSize s c)
    (hclock : s.clock ≤ c.now) (hnow : c.now < 2 ^ 64) :
    let bits := bitsIn b (c.now - s.data.dateUs)
    (8 * s.data.queueSize ≤ bits ∧
      s.data.wait c.now c.size = some (⟨c.now, b, c.size + 28⟩, 0)) ∨
    (bits < 8 * s.data.queueSize ∧ ∃ st : ℤ, 0 ≤ st ∧
      (s.data.queueSize - (bits / 8 : ℕ)) * 8 * 1000000 < b * (st + 40001) ∧
      s.data.wait c.now c.size = some (⟨s.data.dateUs + timeOf b bits, b,
        s.data.queueSize - (bits / 8 : ℕ) + (c.size + 28)⟩, st)) := by
  have hsize := hc.size
  have helapsed := hc.elapsed
  have hdate := h.date_le
  rw [h.bitrate_eq] at helapsed
  have hqueue : s.data.queueSize * 8 < 2 ^ 63 := by
    have := h.queue_le hclock
    omega
  have hrest := h.rest_lt hclock
  have hdata : s.data = ⟨s.data.dateUs, b, s.data.queueSize⟩ := by rw [← h.bitrate_eq]
  intro bits
  rcases le_or_gt (8 * s.data.queueSize) bits with hdrained | hqueued
  · refine Or.inl ⟨hdrained, ?_⟩
    rw [hdata]
    exact wait_drained hb helapsed h.queue_nonneg hqueue (by omega) (by omega) hdrained
  · refine Or.inr ⟨hqueued, ?_⟩
    have hbits : bitsIn b (c.now - s.data.dateUs) = bits := rfl
    clear_value bits
    rw [hbits] at hrest
    obtain ⟨st, hst₀, hst, -, hwait⟩ := @wait_queued s.data.dateUs b c.now s.data.queueSize c.size
      bits hbits hb (by omega) (by omega) hnow helapsed hqueue (by omega) (by omega) hqueued
      (by omega) (by omega)
    rw [← hdata] at hwait
    exact ⟨st, hst₀, hst, hwait⟩

theorem Governs.call (h : Governs b maxSize t₀ s) (hb : 0 < b)
    (hroom : 40001 * b + 8000000 * (maxSize + 29) < 2 ^ 63) (hc : Meets maxSize s c)
    (hs : Rate.call s c = some s') : Governs b maxSize t₀ s' := by
  rw [Rate.call] at hs
  split at hs
  case isFalse => cases hs
  rename_i htime
  obtain ⟨⟨data, st⟩, hwait, hs⟩ := Option.bind_eq_some_iff.mp hs
  simp only [Option.ite_none_right_eq_some, Option.some.injEq] at hs
  obtain ⟨hret, rfl⟩ := hs
  have hsize := hc.size
  have hsent := h.sent
  have hstart := h.start_le
  have hdate := h.date_le
  obtain ⟨hbits, -, htimeOf⟩ := bitsIn_bounds b (c.now - s.data.dateUs)
  rcases h.wait_eq hb hroom hc htime.1 htime.2 with ⟨hdrained, heq⟩ | ⟨hqueued, st', hst, hrest, heq⟩
  · obtain ⟨rfl, rfl⟩ := Prod.mk.inj (Option.some.inj (hwait.symm.trans heq))
    have hway : (b : ℤ) * ((c.now : ℤ) - t₀)
        = b * ((s.data.dateUs : ℤ) - t₀) + ((c.now - s.data.dateUs) * b : ℕ) := by
      rw [Nat.cast_mul, Nat.cast_sub (hdate.trans htime.1)]
      ring
    have hslept : 0 ≤ (b : ℤ) * ((c.ret : ℤ) - c.now) := mul_nonneg (by omega) (by omega)
    exact {
      bitrate_eq := rfl
      queue_nonneg := by simp only; omega
      start_le := by simp only; omega
      date_le := by simp only; omega
      sent := by simp only [Nat.cast_add, hway]; omega
      queue := by simp only; omega }
  · obtain ⟨rfl, rfl⟩ := Prod.mk.inj (Option.some.inj (hwait.symm.trans heq))
    have hrounds : RoundsDown b (c.now - s.data.dateUs) := by
      have := hc.rounds
      rw [h.bitrate_eq] at this
      exact this.resolve_left (by omega)
    rw [RoundsDown] at hrounds
    generalize bitsIn b (c.now - s.data.dateUs) = bits at *
    have hway : (b : ℤ) * ((s.data.dateUs + timeOf b bits : ℕ) - t₀)
        = b * ((s.data.dateUs : ℤ) - t₀) + (b * timeOf b bits : ℕ) := by
      push_cast
      ring
    have hslept : (b : ℤ) * (st + 40001)
        ≤ b * ((c.ret : ℤ) - (s.data.dateUs + timeOf b bits : ℕ)) + 40001 * b := by
      have hle : (b : ℤ) * st ≤ b * ((c.ret : ℤ) - (s.data.dateUs + timeOf b bits : ℕ)) :=
        mul_le_mul_of_nonneg_left (by omega) (by omega)
      rw [mul_add, mul_comm (b : ℤ) 40001]
      exact add_le_add_left hle _
    exact {
      bitrate_eq := rfl
      queue_nonneg := by simp only; omega
      start_le := by simp only; omega
      date_le := by simp only; omega
      sent := by simp only [hway]; omega
      queue := by simp only; linarith }

theorem Governs.start : Governs b maxSize t₀ (Governed.start b t₀) where
  bitrate_eq := rfl
  queue_nonneg := le_rfl
  start_le := le_rfl
  date_le := le_rfl
  sent := by simp [Governed.start]
  queue := by
    simp only [Governed.start, mul_zero, sub_self]
    omega

/-- At most the bitrate and a burst of 40 ms and a packet, as long as the products fit and the
rounding does not favour the queue. -/
theorem wait_bounded (hb : 0 < b) (hroom : 40001 * b + 8000000 * (maxSize + 29) < 2 ^ 63)
    (h : Run.Reach Rate.call (Meets maxSize) (Governed.start b t₀) s) :
    (∀ T : ℕ, s.clock ≤ T → 8000000 * (s.volume : ℤ)
        ≤ b * ((T : ℤ) - t₀) + (40001 * b + 8000000 * (maxSize + 28))) ∧
      ∀ c, Meets maxSize s c → s.clock ≤ c.now → c.now < 2 ^ 64 →
        (s.data.wait c.now c.size).isSome := by
  have hs : Governs b maxSize t₀ s :=
    h.invariant Governs.start fun s c s' hs hc hcall => hs.call hb hroom hc hcall
  constructor
  · intro T hT
    have hsent := hs.sent
    have hqueue := hs.queue
    have hway : (b : ℤ) * ((s.clock : ℤ) - t₀)
        = b * ((s.data.dateUs : ℤ) - t₀) + b * ((s.clock : ℤ) - s.data.dateUs) := by ring
    have hle : (b : ℤ) * ((s.clock : ℤ) - t₀) ≤ b * ((T : ℤ) - t₀) :=
      mul_le_mul_of_nonneg_left (by omega) (by omega)
    omega
  · intro c hc hclock hnow
    rcases hs.wait_eq hb hroom hc hclock hnow with ⟨-, heq⟩ | ⟨-, st, -, -, heq⟩
    · rw [heq, Option.isSome_some]
    · rw [heq, Option.isSome_some]

end Governs

/-- Two packets at once, and one 2000 µs later, at 1 Mbit/s. -/
theorem wait_bounded_three : ∃ s : Governed, (s.volume = 3084 ∧ s.clock = 2000) ∧
    (∀ T : ℕ, s.clock ≤ T → 8000000 * (s.volume : ℤ) ≤
      (1000000 : ℕ) * ((T : ℤ) - (0 : ℕ)) + (40001 * (1000000 : ℕ) + 8000000 * ((1000 : ℕ) + 28))) ∧
      ∀ c, Meets 1000 s c → s.clock ≤ c.now → c.now < 2 ^ 64 →
        (s.data.wait c.now c.size).isSome := by
  have hfirst : call (Governed.start 1000000 0) ⟨0, 0, 1000⟩ =
    some ⟨⟨0, 1000000, 1028⟩, 0, 1028⟩ := by rfl
  have hsecond : call ⟨⟨0, 1000000, 1028⟩, 0, 1028⟩ ⟨0, 0, 1000⟩ =
    some ⟨⟨0, 1000000, 2056⟩, 0, 2056⟩ := by rfl
  have hthird : call ⟨⟨0, 1000000, 2056⟩, 0, 2056⟩ ⟨2000, 2000, 1000⟩ =
    some ⟨⟨2000, 1000000, 2834⟩, 2000, 3084⟩ := by rfl
  have hreach : Run.Reach call (Meets 1000) (Governed.start 1000000 0)
      ⟨⟨2000, 1000000, 2834⟩, 2000, 3084⟩ := by
    refine Run.Reach.next _ (Run.Reach.next _ (Run.Reach.next _ Run.Reach.start ?_ hfirst)
      ?_ hsecond) ?_ hthird
    · exact ⟨le_rfl, by norm_num [Governed.start], Or.inl (by norm_num [Governed.start])⟩
    · exact ⟨le_rfl, by norm_num, Or.inr (by norm_num [RoundsDown, bitsIn])⟩
    · exact ⟨le_rfl, by norm_num, Or.inr (by norm_num [RoundsDown, bitsIn, timeOf])⟩
  exact ⟨⟨⟨2000, 1000000, 2834⟩, 2000, 3084⟩, ⟨rfl, rfl⟩, wait_bounded (by decide) (by norm_num) hreach⟩

/-! ### Rounding that adds up

At 300 kbit/s the 8 bits of 27 µs take a byte out of the queue and move the date by 26 µs. -/

/-- The governor after `n` rounds of a call 27 µs after the date and one 1520 µs after the next. -/
def drift (n : ℕ) : Governed where
  data := { dateUs := 1546 * n, bitrate := 300000, queueSize := 60 }
  clock := 1546 * n
  volume := 60 + 58 * n

/-- A packet of at most two bytes; the product fits. -/
def Fits (s : Governed) (c : Call) : Prop :=
  c.size ≤ 2 ∧ (c.now - s.data.dateUs) * s.data.bitrate < 2 ^ 64

theorem call_credit {d v : ℕ} (hd : d + 1546 < 2 ^ 64) :
    call ⟨⟨d, 300000, 60⟩, d, v⟩ ⟨d + 27, d + 27, 0⟩ =
      some ⟨⟨d + 26, 300000, 87⟩, d + 27, v + 28⟩ := by
  obtain ⟨st, -, -, hsleep, hwait⟩ := @wait_queued d 300000 (d + 27) 60 0 8 (by rw [Nat.add_sub_cancel_left]; rfl) (by norm_num) (by norm_num)
    (by omega) (by omega) (by rw [Nat.add_sub_cancel_left]; norm_num) (by norm_num) (by norm_num)
    (by norm_num) (by norm_num) (by norm_num) (by norm_num)
  obtain rfl : 0 = st := Option.some.inj hsleep
  have hnow : d ≤ d + 27 ∧ d + 27 < 2 ^ 64 := ⟨by omega, by omega⟩
  rw [call, if_pos hnow]
  exact Option.bind_eq_some_iff.mpr ⟨_, hwait, if_pos le_rfl⟩

theorem call_settle {d v : ℕ} (hd : d + 1546 < 2 ^ 64) :
    call ⟨⟨d + 26, 300000, 87⟩, d + 27, v⟩ ⟨d + 1546, d + 1546, 2⟩ =
      some ⟨⟨d + 1546, 300000, 60⟩, d + 1546, v + 30⟩ := by
  have helapsed : d + 1546 - (d + 26) = 1520 := by omega
  obtain ⟨st, -, -, hsleep, hwait⟩ := @wait_queued (d + 26) 300000 (d + 1546) 87 2 456 (by rw [helapsed]; rfl) (by norm_num) (by norm_num)
    (by omega) hd (by rw [helapsed]; norm_num) (by norm_num) (by norm_num)
    (by norm_num) (by norm_num) (by norm_num) (by norm_num)
  obtain rfl : 0 = st := Option.some.inj hsleep
  have hnow : d + 27 ≤ d + 1546 ∧ d + 1546 < 2 ^ 64 := ⟨by omega, hd⟩
  rw [call, if_pos hnow]
  exact Option.bind_eq_some_iff.mpr ⟨_, hwait, if_pos le_rfl⟩

theorem reach_drift_zero : Run.Reach call Fits (Governed.start 300000 0) (drift 0) := by
  have hfirst : call (Governed.start 300000 0) ⟨0, 0, 2⟩ = some ⟨⟨0, 300000, 30⟩, 0, 30⟩ := by rfl
  have hsecond : call ⟨⟨0, 300000, 30⟩, 0, 30⟩ ⟨0, 0, 2⟩ = some (drift 0) := by rfl
  refine Run.Reach.next _ (Run.Reach.next _ Run.Reach.start ?_ hfirst) ?_ hsecond
  · exact ⟨le_rfl, by norm_num [Governed.start]⟩
  · exact ⟨le_rfl, by norm_num⟩

theorem reach_drift_succ {n : ℕ} (hn : n < 40 * 2 ^ 48) :
    Run.Reach call Fits (drift n) (drift (n + 1)) := by
  have hcredit := call_credit (d := 1546 * n) (v := 60 + 58 * n) (by omega)
  have hsettle := call_settle (d := 1546 * n) (v := 60 + 58 * n + 28) (by omega)
  have hnext : drift (n + 1) =
      ⟨⟨1546 * n + 1546, 300000, 60⟩, 1546 * n + 1546, 60 + 58 * n + 28 + 30⟩ := by
    simp only [drift, mul_add, mul_one, add_assoc]
  rw [← hnext] at hsettle
  refine Run.Reach.next _ (Run.Reach.next _ Run.Reach.start ?_ hcredit) ?_ hsettle
  · exact ⟨by norm_num, by simp only [drift, Nat.add_sub_cancel_left]; norm_num⟩
  · exact ⟨le_rfl, by simp only; omega⟩

theorem reach_drift {n : ℕ} (hn : n ≤ 40 * 2 ^ 48) :
    Run.Reach call Fits (Governed.start 300000 0) (drift n) := by
  induction n with
  | zero => exact reach_drift_zero
  | succ n ih => exact (ih (by omega)).trans (reach_drift_succ (by omega))

/-- No burst of less than 2^48 bytes bounds it; and after five idle hours at 1 Gbit/s the product
does not fit. -/
theorem wait_exceeds :
    (∀ burst < 2 ^ 48, ∃ s, Run.Reach call Fits (Governed.start 300000 0) s ∧
      300000 * s.clock + 8000000 * burst < 8000000 * s.volume) ∧
    (Governed.start 1000000000 0).data.wait (19000 * 1000000) 1456 = none := by
  constructor
  · intro burst hburst
    refine ⟨drift (40 * burst), reach_drift (by omega), ?_⟩
    simp only [drift]
    omega
  · decide

end Udpcast.Rate
