import Udpcast.ReceiveData.InTurn
import Udpcast.ReceiveData.Recovery
import Udpcast.SendData.OnWire

/-!
# A sender and its receivers

The machines of the two sides run beside each other, in any order.  A receiver joins at any time, with
the slices that it has overheard.  The path may lose, repeat and reorder the packets of a slice, but
brings none of an earlier slice after one of a later slice.
-/

namespace Udpcast.EndToEnd

open ReceiveData SendData

/-- The sender, the receivers that have joined by their client numbers, and the number of the slice
that arrived last at each. -/
structure System where
  sender : Sender
  receivers : ℕ → Option Receiver
  last : ℕ → ℤ

def System.start (sender : Sender) : System where
  sender := sender
  receivers := fun _ => none
  last := fun _ => -1

inductive Action where
  | sender (a : SendData.Action)
  | receiver (cl : ℕ) (a : ReceiveData.Action)
  | join (cl exitWait : ℕ) (heard : List Datagram)

/-- The number of the slice that was overheard last. -/
def lastHeard (heard : List Datagram) : ℤ :=
  ((heard.filterMap Datagram.slice).getLast?.map Prod.fst).getD (-1)

def step (s : System) : Action → Option System
  | .sender a => (SendData.step s.sender a).map fun x => { s with sender := x }
  | .receiver cl a => do
    let r ← s.receivers cl
    let r' ← ReceiveData.step r a
    some
      { s with
        receivers := Function.update s.receivers cl (some r')
        last := Function.update s.last cl (seeNo r a r' (s.last cl)) }
  | .join cl exitWait heard =>
    match s.receivers cl with
    | some _ => none
    | none => (Fifo.new s.sender.config.blockSize).map fun fifo =>
      { s with
        receivers := Function.update s.receivers cl (some (Receiver.start s.sender.config.blockSize
          exitWait (Negotiate.noted (heard.filterMap Negotiate.overheardOf)) fifo))
        last := Function.update s.last cl (lastHeard heard) }

/-- A packet about a slice that arrives, or has been overheard, is one of `P`, and not of an earlier
slice than the one that arrived last. -/
def Brings (s : System) (P : Datagram → Prop) : Action → Prop
  | .receiver cl (.receive _ _ d) => ∀ p ∈ d.slice, P d ∧ s.last cl ≤ p.1
  | .join _ _ heard => ∀ d ∈ heard, ∀ p ∈ d.slice, P d ∧ p.1 ≤ lastHeard heard
  | _ => True

/-- What arrives has been sent, and is whole. -/
def Delivers (s : System) (a : Action) : Prop := Brings s (fun d => d ∈ s.sender.sent) a

/-- The packet is what a buffer of 4096 bytes holds of one that has been sent. -/
def ReadFrom (sent : List Datagram) (d : Datagram) : Prop := ∃ packet ∈ sent, d = clipped packet

/-- What arrives has been sent, and is cut to the buffer of the receiver. -/
def Reads (s : System) (a : Action) : Prop := Brings s (ReadFrom s.sender.sent) a

theorem Brings.mono {s : System} {P Q : Datagram → Prop} {a : Action} (h : Brings s P a)
    (hPQ : ∀ d, P d → Q d) : Brings s Q a := by
  cases a with
  | sender _ => trivial
  | receiver cl a =>
    cases a with
    | receive top now d => exact fun p hp => ⟨hPQ d (h p hp).1, (h p hp).2⟩
    | _ => trivial
  | join cl exitWait heard => exact fun d hd p hp => ⟨hPQ d (h d hd p hp).1, (h d hd p hp).2⟩

/-- The steps, with what they change. -/
inductive Stepped (s : System) : Action → System → Prop
  | sender {a : SendData.Action} {x : Sender} : SendData.step s.sender a = some x →
      Stepped s (.sender a) { s with sender := x }
  | receiver {cl : ℕ} {a : ReceiveData.Action} {r r' : Receiver} : s.receivers cl = some r →
      ReceiveData.step r a = some r' → Stepped s (.receiver cl a)
        { s with
          receivers := Function.update s.receivers cl (some r')
          last := Function.update s.last cl (seeNo r a r' (s.last cl)) }
  | join {cl exitWait : ℕ} {heard : List Datagram} {fifo : Fifo} : s.receivers cl = none →
      Fifo.new s.sender.config.blockSize = some fifo → Stepped s (.join cl exitWait heard)
        { s with
          receivers := Function.update s.receivers cl (some (Receiver.start
            s.sender.config.blockSize exitWait
            (Negotiate.noted (heard.filterMap Negotiate.overheardOf)) fifo))
          last := Function.update s.last cl (lastHeard heard) }

theorem stepped {s s' : System} {a : Action} (hs : step s a = some s') : Stepped s a s' := by
  cases a with
  | sender a =>
    obtain ⟨x, hx, rfl⟩ := Option.map_eq_some_iff.mp hs
    exact Stepped.sender hx
  | receiver cl a =>
    obtain ⟨r, hr, hs⟩ := Option.bind_eq_some_iff.mp hs
    obtain ⟨r', hr', hs⟩ := Option.bind_eq_some_iff.mp hs
    obtain rfl := Option.some.inj hs
    exact Stepped.receiver hr hr'
  | join cl exitWait heard =>
    rw [step] at hs
    split at hs
    · cases hs
    · rename_i hr
      obtain ⟨fifo, hfifo, rfl⟩ := Option.map_eq_some_iff.mp hs
      exact Stepped.join hr hfifo

/-! ### Packets that fit the buffer -/

/-- Blocks of at most 4080 bytes arrive whole. -/
structure Whole (s : System) : Prop where
  sound : Sound s.sender
  onWire : OnWire s.sender
  blockSize : s.sender.config.blockSize ≤ 4080

section Whole

variable {s s' : System} {a : Action}

theorem Whole.mem_sent (h : Whole s) {d : Datagram} (hd : ReadFrom s.sender.sent d) :
    d ∈ s.sender.sent := by
  obtain ⟨packet, hsent, rfl⟩ := hd
  rw [(h.onWire.sent packet hsent).clipped_eq h.blockSize]
  exact hsent

theorem Whole.delivers (h : Whole s) (ha : Reads s a) : Delivers s a :=
  ha.mono fun _ hd => h.mem_sent hd

theorem Whole.step (h : Whole s) (hs : EndToEnd.step s a = some s') : Whole s' := by
  cases stepped hs with
  | sender hx =>
    have hstep := SendData.step_cases hx
    have hsize := (hstep.moves h.sound.control).blockSize
    exact ⟨h.sound.step hstep, h.onWire.step h.sound hx, hsize.trans_le h.blockSize⟩
  | receiver _ _ => exact ⟨h.sound, h.onWire, h.blockSize⟩
  | join _ _ => exact ⟨h.sound, h.onWire, h.blockSize⟩

theorem whole_start {config : NetConfig} {db : ParticipantsDb} {x : Sender}
    (hblock : config.blockSize ≤ 4080) (hstart : Sender.start config db = some x) :
    Whole (System.start x) :=
  ⟨sound_start hstart, onWire_start hstart, (start_blockSize hstart).trans_le hblock⟩

end Whole

/-! ### What holds of the two sides -/

/-- Every receiver follows the transfer of what has been sent, whatever comes after it. -/
structure Together (s : System) : Prop where
  faithful : Faithful s.sender
  turns : ∀ cl r, s.receivers cl = some r → ∀ t, t.blockSize = s.sender.config.blockSize → t.Whole →
    (∀ d ∈ s.sender.sent, t.Carries (wireStripes s.sender.config.fecStripes) d) →
      Turns t (wireStripes s.sender.config.fecStripes) (r, s.last cl)
  last : ∀ cl, s.last cl < s.sender.cuts.length

section Together

variable {s s' : System} {a : Action}

theorem update_eq_some {f : ℕ → Option Receiver} {cl j : ℕ} {r q : Receiver}
    (h : Function.update f cl (some r) j = some q) : j = cl ∧ q = r ∨ j ≠ cl ∧ f j = some q := by
  by_cases hj : j = cl
  · subst hj
    rw [Function.update_self] at h
    exact Or.inl ⟨rfl, (Option.some.inj h).symm⟩
  · rw [Function.update_of_ne hj] at h
    exact Or.inr ⟨hj, h⟩

theorem exists_update {f : ℕ → Option Receiver} {cl j : ℕ} {r : Receiver} {P : Receiver → Prop}
    (hP : ∀ q, f cl = some q → P q → P r) (h : ∃ q, f j = some q ∧ P q) :
    ∃ q, Function.update f cl (some r) j = some q ∧ P q := by
  obtain ⟨q, hq, hp⟩ := h
  by_cases hj : j = cl
  · subst hj
    exact ⟨r, Function.update_self .., hP q hq hp⟩
  · exact ⟨q, (Function.update_of_ne hj ..).trans hq, hp⟩

theorem wireStripes_lt_size (stripes : ℕ) : wireStripes stripes < 2 ^ 31 := by
  have hlt := wireStripes_lt stripes
  omega

theorem Together.sender (h : Together s) {a : SendData.Action} {x : Sender}
    (hs : SendData.step s.sender a = some x) : Together { s with sender := x } := by
  have hstep := step_cases hs
  have hm := hstep.moves h.faithful.sound.control
  obtain ⟨hsize, hstripes, -⟩ := (hstep.resized h.faithful.sound.control).fec
  refine ⟨h.faithful.step hs, fun cl r hr t hblock hwhole hcarries => ?_, fun cl => ?_⟩
  · change t.blockSize = x.config.blockSize at hblock
    change ∀ d ∈ x.sent, t.Carries (wireStripes x.config.fecStripes) d at hcarries
    show Turns t (wireStripes x.config.fecStripes) (r, s.last cl)
    rw [hsize] at hblock
    rw [hstripes] at hcarries ⊢
    refine h.turns cl r hr t hblock hwhole fun d hd => hcarries d ?_
    obtain ⟨_, _, ds, -, -, hsent⟩ := hm.extends
    rw [hsent]
    exact List.mem_append_left _ hd
  · obtain ⟨rest, _, _, hcuts, -, -⟩ := hm.extends
    have hlast := h.last cl
    show s.last cl < x.cuts.length
    rw [hcuts, List.length_append]
    omega

theorem Delivers.carried {cl : ℕ} {a : ReceiveData.Action} {t : Transfer} {stripes : ℕ}
    (hd : Delivers s (.receiver cl a)) (hwhole : t.Whole)
    (hcarries : ∀ d ∈ s.sender.sent, t.Carries stripes d) : Carried t stripes a := by
  cases a with
  | receive top now d =>
    cases hslice : d.slice with
    | none =>
      cases d with
      | data _ _ => cases hslice
      | fec _ _ => cases hslice
      | reqack _ => cases hslice
      | skipped => exact ⟨trivial, fun hne => absurd rfl hne⟩
      | unexpected => exact ⟨trivial, fun hne => absurd rfl hne⟩
    | some p => exact ⟨hcarries d (hd p hslice).1, fun _ => hwhole⟩
  | seed => trivial
  | expire _ => trivial
  | complete => trivial
  | scan _ => trivial
  | write => trivial
  | writeConsumed => trivial
  | writeProduced => trivial

theorem Delivers.orderly {cl : ℕ} {a : ReceiveData.Action} (hd : Delivers s (.receiver cl a)) :
    Orderly (s.last cl) a := by
  cases a with
  | receive top now d => exact fun p hp => (hd p hp).2
  | seed => trivial
  | expire _ => trivial
  | complete => trivial
  | scan _ => trivial
  | write => trivial
  | writeConsumed => trivial
  | writeProduced => trivial

theorem Together.seeNo_lt (h : Together s) {cl : ℕ} {a : ReceiveData.Action} {r r' : Receiver}
    (hd : Delivers s (.receiver cl a)) : seeNo r a r' (s.last cl) < s.sender.cuts.length := by
  cases a with
  | receive top now d =>
    cases hslice : d.slice with
    | none =>
      rw [seeNo, hslice]
      exact h.last cl
    | some p =>
      obtain ⟨n, -, hlt, hn⟩ := (h.faithful.tells d (hd p hslice).1).slice
      rw [seeNo, hn]
      exact hlt
  | seed => exact h.last cl
  | expire _ => exact h.last cl
  | complete => exact h.last cl
  | scan _ => exact h.last cl
  | write => exact h.last cl
  | writeConsumed => exact h.last cl
  | writeProduced => exact h.last cl

theorem Together.update (h : Together s) {cl : ℕ} {r : Receiver} {last : ℤ}
    (hlast : last < s.sender.cuts.length)
    (hturns : ∀ t, t.blockSize = s.sender.config.blockSize → t.Whole →
      (∀ d ∈ s.sender.sent, t.Carries (wireStripes s.sender.config.fecStripes) d) →
        Turns t (wireStripes s.sender.config.fecStripes) (r, last)) :
    Together { s with
      receivers := Function.update s.receivers cl (some r)
      last := Function.update s.last cl last } := by
  refine ⟨h.faithful, fun cl' r' hr' t hblock hwhole hcarries => ?_, fun cl' => ?_⟩
  · dsimp only
    rcases update_eq_some hr' with ⟨rfl, rfl⟩ | ⟨hcl, hr'⟩
    · rw [Function.update_self]
      exact hturns t hblock hwhole hcarries
    · rw [Function.update_of_ne hcl]
      exact h.turns cl' r' hr' t hblock hwhole hcarries
  · by_cases hcl : cl' = cl
    · subst hcl
      dsimp only
      rw [Function.update_self]
      exact hlast
    · dsimp only
      rw [Function.update_of_ne hcl]
      exact h.last cl'

theorem Together.receiver (h : Together s) {cl : ℕ} {a : ReceiveData.Action} {r r' : Receiver}
    (hd : Delivers s (.receiver cl a)) (hr : s.receivers cl = some r)
    (hs : ReceiveData.step r a = some r') :
    Together { s with
      receivers := Function.update s.receivers cl (some r')
      last := Function.update s.last cl (seeNo r a r' (s.last cl)) } := by
  apply h.update (h.seeNo_lt hd)
  intro t hblock hwhole hcarries
  exact (h.turns cl r hr t hblock hwhole hcarries).step (wireStripes_lt_size _)
    (hd.carried hwhole hcarries) hd.orderly (ReceiveData.step_cases hs)

theorem lastHeard_cases (heard : List Datagram) :
    lastHeard heard = -1 ∨ ∃ d ∈ heard, ∃ b, d.slice = some (lastHeard heard, b) := by
  unfold lastHeard
  cases hlast : (heard.filterMap Datagram.slice).getLast? with
  | none => exact Or.inl rfl
  | some p =>
    obtain ⟨d, hd, hslice⟩ := List.mem_filterMap.mp (List.mem_of_getLast? hlast)
    exact Or.inr ⟨d, hd, p.2, hslice⟩

theorem Together.join (h : Together s) {cl exitWait : ℕ} {heard : List Datagram} {fifo : Fifo}
    (hd : Delivers s (.join cl exitWait heard))
    (hfifo : Fifo.new s.sender.config.blockSize = some fifo) :
    Together { s with
      receivers := Function.update s.receivers cl (some (Receiver.start s.sender.config.blockSize
        exitWait (Negotiate.noted (heard.filterMap Negotiate.overheardOf)) fifo))
      last := Function.update s.last cl (lastHeard heard) } := by
  apply h.update
  · rcases lastHeard_cases heard with hnone | ⟨d, hmem, b, hslice⟩
    · rw [hnone]
      omega
    · obtain ⟨n, -, hlt, hn⟩ := (h.faithful.tells d (hd d hmem _ hslice).1).slice
      rw [hslice, Option.some_inj] at hn
      obtain ⟨heq, -⟩ := Prod.mk.inj hn
      rw [heq]
      exact hlt
  · intro t hblock hwhole hcarries
    rw [← hblock] at hfifo ⊢
    refine turns_start t _ exitWait hfifo (fun e he => ?_) ?_
    · obtain ⟨d, hmem, hslice⟩ := Negotiate.slice_of_noted he
      obtain ⟨hsent, hle⟩ := hd d hmem _ hslice
      exact ⟨(hcarries d hsent).describes.isSlice hslice, hle⟩
    · rcases lastHeard_cases heard with hnone | ⟨d, hmem, b, hslice⟩
      · rw [hnone]
        omega
      · have hsent := (hd d hmem _ hslice).1
        exact ((hcarries d hsent).describes.isSlice hslice).2.1

theorem Together.step (h : Together s) (hd : Delivers s a) (hs : EndToEnd.step s a = some s') :
    Together s' := by
  cases stepped hs with
  | sender hx => exact h.sender hx
  | receiver hr hr' => exact h.receiver hd hr hr'
  | join _ hfifo => exact h.join hd hfifo

end Together

theorem together_start {config : NetConfig} {db : ParticipantsDb} {x : Sender}
    (hfit : HalfDuplexFit config) (hstart : Sender.start config db = some x) :
    Together (System.start x) where
  faithful := faithful_start hfit hstart
  turns cl r hr := by cases hr
  last _ := by
    show (-1 : ℤ) < x.cuts.length
    omega

/-- A receiver at which the end is marked has got the end marker, which is sent after the last slice. -/
theorem Together.passed_of_atEnd {s : System} (h : Together s) {cl : ℕ} {r : Receiver}
    (hr : s.receivers cl = some r) (hend : r.atEnd = true) :
    s.sender.fifo.data.inner.atEnd = true ∧ r.passed = s.sender.input := by
  obtain ⟨t, hsends⟩ := h.faithful.sends
  have hturns := h.turns cl r hr t hsends.blockSize hsends.whole (h.faithful.carries hsends)
  have hmarker : (t.endNo : ℤ) ≤ s.last cl := hturns.endNo_le hend
  have hlast := h.last cl
  obtain ⟨hdata, hall⟩ := hsends.ended (by omega)
  exact ⟨hdata, (hturns.passed_of_atEnd hend).trans hall⟩

/-- A writer that has returned has been told the end, and has written what has passed. -/
theorem Together.output_of_returned {s : System} (h : Together s) {cl : ℕ} {r : Receiver}
    (hr : s.receivers cl = some r) (hret : r.writer = .returned) :
    s.sender.fifo.data.inner.atEnd = true ∧ r.output = s.sender.input := by
  obtain ⟨t, hsends⟩ := h.faithful.sends
  have hturns := h.turns cl r hr t hsends.blockSize hsends.whole (h.faithful.carries hsends)
  obtain ⟨hend, hout⟩ := hturns.returned hret
  obtain ⟨hdata, hpassed⟩ := h.passed_of_atEnd hr hend
  exact ⟨hdata, (hout.trans (hturns.passed_of_atEnd hend).symm).trans hpassed⟩

/-- No false completion.  In every run of a half-duplex transfer of blocks that fit the buffer of a
receiver, also for receivers that join late: when the end is marked at a receiver, the sender has read
its input to the end, and exactly these bytes have passed through `fifo.data` of the receiver; when its
writer returns it has written them. -/
theorem receiver_atEnd (config : NetConfig) (db : ParticipantsDb) (x₀ : Sender) (s : System) (cl : ℕ)
    (r : Receiver) (hfit : HalfDuplexFit config) (hblock : config.blockSize ≤ 4080)
    (hstart : Sender.start config db = some x₀) (hrun : Run.Reach step Reads (System.start x₀) s)
    (hr : s.receivers cl = some r) :
    (r.atEnd = true → s.sender.fifo.data.inner.atEnd = true ∧ r.passed = s.sender.input) ∧
    (r.writer = .returned → s.sender.fifo.data.inner.atEnd = true ∧ r.output = s.sender.input) := by
  have hrun' := hrun.mono_of_invariant (whole_start hblock hstart)
    (fun s a s' h _ hs => h.step hs) fun s a h ha => h.delivers ha
  have h := hrun'.invariant (I := Together) (together_start hfit hstart)
    fun s a s' hi hd hs => hi.step hd hs
  exact ⟨h.passed_of_atEnd hr, h.output_of_returned hr⟩

/-! ### A transfer of one byte -/

instance (s : System) (P : Datagram → Prop) [DecidablePred P] : (a : Action) → Decidable (Brings s P a)
  | .receiver cl (.receive _ _ d) =>
    inferInstanceAs (Decidable (∀ p ∈ d.slice, P d ∧ s.last cl ≤ p.1))
  | .join _ _ heard =>
    inferInstanceAs (Decidable (∀ d ∈ heard, ∀ p ∈ d.slice, P d ∧ p.1 ≤ lastHeard heard))
  | .receiver _ .seed | .receiver _ (.expire _) | .receiver _ .complete | .receiver _ (.scan _)
  | .receiver _ .write | .receiver _ .writeConsumed | .receiver _ .writeProduced | .sender _ =>
    inferInstanceAs (Decidable True)

instance (sent : List Datagram) (d : Datagram) : Decidable (ReadFrom sent d) :=
  inferInstanceAs (Decidable (∃ packet ∈ sent, _))

instance (s : System) (a : Action) : Decidable (Delivers s a) :=
  inferInstanceAs (Decidable (Brings s _ a))

instance (s : System) (a : Action) : Decidable (Reads s a) :=
  inferInstanceAs (Decidable (Brings s _ a))

/-- Receiver 0 has overheard the end of the first slice; it gets the block, and the REQACK of the end
marker. -/
def receiveOne : List Action :=
  .join 0 500 [.reqack ⟨0, 1, 0⟩] ::
    [.seed, .seed, .receive 0 0 (.data ⟨0, 0, 1⟩ [7]), .complete, .scan 0,
      .receive 0 0 (.reqack ⟨1, 0, 0⟩), .complete, .scan 0, .write, .writeConsumed, .writeProduced,
      .write].map (.receiver 0)

/-- The sender sends the byte and, after the OKs of both participants, the end marker. -/
def sendBothSlices : List Action :=
  (sendOne ++ message (.ok 0 0) ++ message (.ok 0 1) ++
    List.replicate 2 SendData.Action.dispatch ++ List.replicate 9 SendData.Action.advance).map
      .sender

theorem halfDuplex_fit : HalfDuplexFit halfDuplex where
  one := by decide
  slices size hsize := by
    obtain rfl : 130 = size := Option.some.inj hsize
    decide
  blockSize := by decide
  parity hfec := by cases hfec

theorem receiver_atEnd_oneByte : ∃ r : Receiver, r.writer = .returned ∧ r.output = [7] := by
  have hexec : ((Sender.start halfDuplex twoParticipants).bind fun x =>
      (Run.exec step Reads (System.start x) (sendBothSlices ++ receiveOne)).bind fun s =>
        (s.receivers 0).map fun r => (s, r)).map
      (fun p => decide (p.2.writer = .returned ∧ p.1.sender.input = [7])) = some true := by
    decide +kernel
  obtain ⟨⟨s, r⟩, hs, hp⟩ := Option.map_eq_some_iff.mp hexec
  obtain ⟨x₀, hstart, hs⟩ := Option.bind_eq_some_iff.mp hs
  obtain ⟨s', hreach, hs⟩ := Option.bind_eq_some_iff.mp hs
  obtain ⟨r', hr, heq⟩ := Option.map_eq_some_iff.mp hs
  obtain ⟨rfl, rfl⟩ := Prod.mk.inj heq
  obtain ⟨hret, hinput⟩ := of_decide_eq_true hp
  obtain ⟨-, hout⟩ := (receiver_atEnd halfDuplex twoParticipants x₀ s' 0 r' halfDuplex_fit (by decide)
    hstart (Run.reach_of_exec hreach) hr).2 hret
  exact ⟨r', hret, hout.trans hinput⟩

end Udpcast.EndToEnd
