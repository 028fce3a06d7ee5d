import Udpcast.Lockstep
import Udpcast.ReceiveData.Have
import Udpcast.SendData.Requests

/-!
# The repair of a slice

Between two REQACKs of a slice all blocks are sent again that a participant who asks for some does
not have.  In half-duplex mode one such round is enough for a participant who gets its packets.
-/

namespace Udpcast.EndToEnd

open ReceiveData SendData

/-- A RETRANSMIT that reaches the sender has been sent by its receiver. -/
def Requested (s : System) : Action → Prop
  | .sender (.arrive (.retransmit n cl map rxmit)) =>
    ∃ r ∈ s.receivers cl, ReceiveData.Event.retransmit n rxmit map ∈ r.trace
  | _ => True

/-- What is noted of the rounds of the sender, and of the packets that arrive at the receivers. -/
structure Notes where
  rounds : Fin 8 → Round
  got : ℕ → List Datagram

def Notes.start : Notes := ⟨fun _ => ⟨[], []⟩, fun _ => []⟩

def noteRounds (s : System) (a : Action) (s' : System) (rounds : Fin 8 → Round) : Fin 8 → Round :=
  match a with
  | .sender a => seeRound s.sender a s'.sender rounds
  | .receiver _ _ | .join _ _ _ => rounds

def noteArrival (cl : ℕ) (a : ReceiveData.Action) (got : ℕ → List Datagram) : ℕ → List Datagram :=
  match a with
  | .receive _ _ d => Function.update got cl (got cl ++ [d])
  | _ => got

def noteArrivals (a : Action) (got : ℕ → List Datagram) : ℕ → List Datagram :=
  match a with
  | .receiver cl a => noteArrival cl a got
  | .sender _ | .join _ _ _ => got

def note (s : System) (a : Action) (s' : System) (o : Notes) : Notes :=
  ⟨noteRounds s a s' o.rounds, noteArrivals a o.got⟩

/-- Receiver `cl` has joined, and has the blocks `p` of slice `n`. -/
def HasBlocks (s : System) (cl : ℕ) (n : ℤ) (p : ℕ → Prop) : Prop :=
  ∃ r, s.receivers cl = some r ∧ ∀ k < 1024, p k → Held r n k

/-- Who asks for blocks of a slice has all others. -/
structure Repairs (s : System) : Prop where
  sound : Sound s.sender
  record : ∀ cl r, s.receivers cl = some r → Consistent r ∧ CompletingUsed r ∧ Told r
  asks : ∀ i cl, (s.sender.slices i).Asks cl → HasBlocks s cl (s.sender.slices i).sliceNo
    fun k => (s.sender.slices i).rxmitMap.getLsbD k = false
  queued : ∀ n cl map rxmit, s.sender.arrived (.retransmit n cl map rxmit) →
    HasBlocks s cl n fun k => map.getLsbD k = true

section Repairs

variable {s s' : System} {a : Action} {rounds : Fin 8 → Round}

theorem Repairs.update (h : Repairs s) {cl : ℕ} {r : Receiver} {last : ℤ}
    (hrecord : Consistent r ∧ CompletingUsed r ∧ Told r)
    (hheld : ∀ q, s.receivers cl = some q → ∀ n k, Held q n k → Held r n k) :
    Repairs { s with
      receivers := Function.update s.receivers cl (some r)
      last := Function.update s.last cl last } := by
  have hhas : ∀ j n p, HasBlocks s j n p → HasBlocks { s with
      receivers := Function.update s.receivers cl (some r)
      last := Function.update s.last cl last } j n p := by
    intro j n p hall
    apply exists_update _ hall
    exact fun q hq hall k hk hp => hheld q hq n k (hall k hk hp)
  refine ⟨h.sound, fun j q hq => ?_, fun i j hasks => hhas _ _ _ (h.asks i j hasks),
    fun n j map rxmit hm => hhas _ _ _ (h.queued n j map rxmit hm)⟩
  rcases update_eq_some hq with ⟨-, rfl⟩ | ⟨-, hq⟩
  · exact hrecord
  · exact h.record j q hq

theorem Repairs.sender (h : Repairs s) {a : SendData.Action} {x : Sender}
    (ha : Requested s (.sender a)) (hs : SendData.step s.sender a = some x) :
    Repairs { s with sender := x } := by
  have hstep := SendData.step_cases hs
  refine ⟨h.sound.step hstep, h.record, fun i cl hasks => ?_, fun n cl map rxmit hm => ?_⟩
  · rcases hstep.requests h.sound.control i cl hasks with ⟨hold, hno, hgrows⟩ | ⟨map, rxmit, hhead, hmap⟩
    · obtain ⟨r, hr, hall⟩ := h.asks i cl hold
      refine ⟨r, hr, fun k hk hnot => ?_⟩
      dsimp only at hnot ⊢
      rw [hno]
      refine hall k hk (Bool.eq_false_iff.mpr fun hset => ?_)
      rw [hgrows k hset] at hnot
      cases hnot
    · -- the RETRANSMIT is dispatched
      obtain ⟨r, hr, hall⟩ := h.queued _ cl map rxmit (Or.inl (List.mem_of_mem_head? hhead))
      refine ⟨r, hr, fun k hk hnot => hall k hk ?_⟩
      by_contra hmissing
      dsimp only at hnot
      rw [hmap k hk (Bool.eq_false_of_not_eq_true hmissing)] at hnot
      cases hnot
  · rcases hstep.arrived h.sound.control hm with hm | rfl
    · exact h.queued n cl map rxmit hm
    · obtain ⟨r, hr, hmem⟩ := ha
      exact ⟨r, hr, fun k _ hk => (h.record cl r hr).2.2 n rxmit map hmem k hk⟩

theorem Repairs.step (h : Repairs s) (ha : Requested s a) (hs : EndToEnd.step s a = some s') :
    Repairs s' := by
  cases stepped hs with
  | sender hx => exact h.sender ha hx
  | receiver hr hr' =>
    obtain ⟨hc, hused, htold⟩ := h.record _ _ hr
    have hstep := ReceiveData.step_cases hr'
    apply h.update
    · exact ⟨hc.change (hstep.change hused), hstep.completingUsed hused, htold.step hc hused hstep⟩
    · intro q hq n k hheld
      obtain rfl := Option.some.inj (hr.symm.trans hq)
      exact hheld.step hused hstep
  | join hr _ =>
    apply h.update
    · exact ⟨consistent_start _ _ _ _, completingUsed_start _ _ _ _, told_start _ _ _ _⟩
    · intro q hq
      rw [hr] at hq
      cases hq

theorem repairs_start {config : NetConfig} {db : ParticipantsDb} {x : Sender}
    (hstart : Sender.start config db = some x) : Repairs (System.start x) := by
  have hsound := sound_start hstart
  simp only [Sender.start, Option.bind_eq_bind, Option.bind_eq_some_iff] at hstart
  obtain ⟨fifo, -, nrFec, -, c₁, -, c₂, -, hstart⟩ := hstart
  obtain rfl := Option.some.inj hstart
  refine ⟨hsound, fun cl r hr => (by cases hr), fun i cl hasks => ?_, fun n cl map rxmit hm => ?_⟩
  · cases hasks.1
  · rcases hm with hm | hm
    · cases hm
    · cases hm

theorem inRound_noteRounds (h : InRound s.sender rounds) (hsound : Sound s.sender)
    (hs : EndToEnd.step s a = some s') : InRound s'.sender (noteRounds s a s' rounds) := by
  cases stepped hs with
  | sender hx => exact h.step hsound (SendData.step_cases hx)
  | receiver _ _ => exact h
  | join _ _ => exact h

/-- At the REQACK that ends a round, a block of a participant who has asked in it is there, or has
been sent. -/
theorem Repairs.served (h : Repairs s) (hround : InRound s.sender rounds) {a : SendData.Action}
    {x : Sender} {i : Fin 8} {cl : ℕ} (hs : SendData.step s.sender a = some x)
    (hslot : reqackSlot s.sender a x = some i) (hasks : (s.sender.slices i).Asks cl)
    (hblocks : s.sender.config.nrBlocks (s.sender.slices i).bytes ≤ 1024) :
    ∃ r, s.receivers cl = some r ∧
      ∀ k < s.sender.config.nrBlocks (s.sender.slices i).bytes,
        Held r (s.sender.slices i).sliceNo k ∨ ∃ ring : Fifo,
          (ring, ringPacket s.sender.config.blockSize (s.sender.slices i) ring k) ∈ (rounds i).sent := by
  obtain ⟨r, hr, hall⟩ := h.asks i cl hasks
  refine ⟨r, hr, fun k hk => ?_⟩
  have hslots := hround.slots i hasks.1
  have hneed := hround.served_of_reqack hs hslot hasks.1
  cases hmap : (s.sender.slices i).rxmitMap.getLsbD k with
  | false => exact Or.inl (hall k (by omega) hmap)
  | true =>
    right
    have hsent := hslots.served hneed k hk hmap
    obtain ⟨ring, hperm⟩ := hslots.copies
    exact ⟨ring k, hperm.symm.subset (List.mem_flatMap.mpr
      ⟨k, List.mem_filter.mpr ⟨List.mem_range.mpr hk, hsent⟩, List.mem_cons_self⟩)⟩

/-! ### One round is enough -/

/-- The blocks of the packets that have arrived at a receiver in the table are there. -/
structure Got (s : System) (got : ℕ → List Datagram) : Prop where
  current : ∀ cl r, s.receivers cl = some r → CurrentUsed r
  none : ∀ cl, s.receivers cl = none → got cl = []
  held : ∀ cl r, s.receivers cl = some r → s.sender.db.isParticipantValid cl = true →
    ∀ msg payload, Datagram.data msg payload ∈ got cl → msg.blockNo < maxSliceSize →
      Held r msg.sliceNo msg.blockNo

variable {got : ℕ → List Datagram}

theorem Got.update (h : Got s got) {cl : ℕ} {r : Receiver} {l : List Datagram}
    (hcurrent : CurrentUsed r) (last : ℤ)
    (hheld : s.sender.db.isParticipantValid cl = true → ∀ msg payload,
      Datagram.data msg payload ∈ l → msg.blockNo < maxSliceSize → Held r msg.sliceNo msg.blockNo) :
    Got { s with
      receivers := Function.update s.receivers cl (some r)
      last := Function.update s.last cl last } (Function.update got cl l) := by
  refine ⟨fun j q hq => ?_, fun j hj => ?_, fun j q hq hvalid => ?_⟩
  · rcases update_eq_some hq with ⟨-, rfl⟩ | ⟨-, hq⟩
    · exact hcurrent
    · exact h.current j q hq
  · dsimp only at hj
    by_cases hcl : j = cl
    · subst hcl
      rw [Function.update_self] at hj
      cases hj
    · rw [Function.update_of_ne hcl] at hj ⊢
      exact h.none j hj
  · rcases update_eq_some hq with ⟨rfl, rfl⟩ | ⟨hj, hq⟩
    · rw [Function.update_self]
      exact hheld hvalid
    · rw [Function.update_of_ne hj]
      exact h.held j q hq hvalid

theorem Got.receiver (h : Got s got) (hlock : Lockstep s) {cl : ℕ} {a : ReceiveData.Action}
    {r r' : Receiver} {last : ℤ} (hr : s.receivers cl = some r)
    (hs : ReceiveData.step r a = some r') : Got { s with
      receivers := Function.update s.receivers cl (some r')
      last := Function.update s.last cl last } (noteArrival cl a got) := by
  obtain ⟨hc, hused⟩ := hlock.record cl r hr
  have hstep := ReceiveData.step_cases hs
  have hcurrent := (h.current cl r hr).step hused hstep
  have hold : s.sender.db.isParticipantValid cl = true → ∀ msg payload,
      Datagram.data msg payload ∈ got cl → msg.blockNo < maxSliceSize →
        Held r' msg.sliceNo msg.blockNo := fun hvalid msg payload hmem hk =>
    (h.held cl r hr hvalid msg payload hmem hk).step hused hstep
  have hkeep : Got { s with
      receivers := Function.update s.receivers cl (some r')
      last := Function.update s.last cl last } got := by
    have hupdate := h.update hcurrent last hold
    rwa [Function.update_eq_self] at hupdate
  cases a with
  | receive top now d =>
    apply h.update hcurrent last
    intro hvalid msg payload hmem hk
    rcases List.mem_append.mp hmem with hmem | hmem
    · exact hold hvalid msg payload hmem hk
    · obtain rfl := List.mem_singleton.mp hmem
      exact hstep.there hc ((h.current cl r hr).served (hlock.freeSlot_ne_none hr hvalid) _) hk
  | seed => exact hkeep
  | expire _ => exact hkeep
  | complete => exact hkeep
  | scan _ => exact hkeep
  | write => exact hkeep
  | writeConsumed => exact hkeep
  | writeProduced => exact hkeep

theorem Got.step (h : Got s got) (hlock : Lockstep s) (hs : EndToEnd.step s a = some s') :
    Got s' (noteArrivals a got) := by
  cases stepped hs with
  | sender hx =>
    have hsound := hlock.together.faithful.sound
    have htally := (SendData.step_cases hx).tally hsound.control hlock.votes.nonAsync
    exact ⟨h.current, h.none, fun cl r hr hvalid => h.held cl r hr (htally.valid cl hvalid)⟩
  | receiver hr hr' => exact h.receiver hlock hr hr'
  | @join cl exitWait heard fifo hr _ =>
    have hempty : s.sender.db.isParticipantValid cl = true → ∀ msg payload,
        Datagram.data msg payload ∈ got cl → msg.blockNo < maxSliceSize →
          Held (Receiver.start s.sender.config.blockSize exitWait
            (Negotiate.noted (heard.filterMap Negotiate.overheardOf)) fifo) msg.sliceNo msg.blockNo := by
      intro _ msg payload hmem
      rw [h.none cl hr] at hmem
      cases hmem
    have hupdate := h.update (currentUsed_start _ _ _ _) (lastHeard heard) hempty
    rwa [Function.update_eq_self] at hupdate

theorem got_start (x : Sender) : Got (System.start x) fun _ => [] :=
  ⟨fun cl r hr => (by cases hr), fun _ _ => rfl, fun cl r hr => (by cases hr)⟩

theorem nrBlocks_le (h : Lockstep s) {i : Fin 8} (hi : (s.sender.slices i).inFlight) :
    s.sender.config.nrBlocks (s.sender.slices i).bytes ≤ 1024 := by
  obtain ⟨h0, hlt, hbytes, -⟩ := h.together.faithful.sound.cut.slot i hi
  have hmem : (s.sender.slices i).bytes ∈ s.sender.cuts := by
    rw [hbytes, List.getD_eq_getElem _ _ (by omega)]
    exact List.getElem_mem _
  have hle := h.together.faithful.sizes.cuts _ hmem
  by_contra hgt
  have hmul := lt_nrBlocks.mp (not_le.mp hgt)
  rw [Nat.mul_comm] at hmul
  omega

theorem available_of_held (h : Lockstep s) {cl : ℕ} {r : Receiver} (hr : s.receivers cl = some r)
    (hvalid : s.sender.db.isParticipantValid cl = true) {i : Fin 8}
    (hi : (s.sender.slices i).inFlight) (hpos : 0 < (s.sender.slices i).bytes)
    (hall : ∀ k < s.sender.config.nrBlocks (s.sender.slices i).bytes,
      Held r (s.sender.slices i).sliceNo k) : Available r (s.sender.slices i).sliceNo := by
  by_cases hdone : r.completed (s.sender.slices i).sliceNo = true
  · exact Or.inr (Or.inl hdone)
  obtain ⟨t, hsends⟩ := h.together.faithful.sends
  have hturns := h.together.turns cl r hr t hsends.blockSize hsends.whole
    (h.together.faithful.carries hsends)
  have hreassembles : Reassembles t (wireStripes s.sender.config.fecStripes) r := by
    rcases hturns.gapless with hgap | ⟨n, h0, hlt, hno⟩
    · exact hgap.reassembles
    · rw [h.recorded hr hvalid h0 hlt] at hno
      cases hno
  have hkeeps := hreassembles.keeps
  obtain ⟨h0, hlt, hbytes, -⟩ := h.together.faithful.sound.cut.slot i hi
  have hsize : t.size (s.sender.slices i).sliceNo = (s.sender.slices i).bytes :=
    (hsends.size _ h0).trans hbytes.symm
  have hlen : (t.content (s.sender.slices i).sliceNo).length = (s.sender.slices i).bytes :=
    (Transfer.length_content h0).trans hsize
  have hslot : ∀ k < s.sender.config.nrBlocks (s.sender.slices i).bytes, ∃ j,
      (r.slices j).state = .receiving ∧ (r.slices j).sliceNo = (s.sender.slices i).sliceNo ∧
        (r.slices j).retransmitMap.getLsbD k = true :=
    fun k hk => (hall k hk).resolve_left hdone
  have hblockSize := s.sender.config.blockSize_pos
  obtain ⟨j, hj, hno, -⟩ := hslot 0 (lt_nrBlocks.mpr (by omega))
  have hdata : 0 < t.size (r.slices j).sliceNo := by
    rw [hno, hsize]
    exact hpos
  have hholds := hkeeps.holds j hj hdata
  have hblocks : blocksIn r.blockSize (t.content (r.slices j).sliceNo).length
      = s.sender.config.nrBlocks (s.sender.slices i).bytes := by
    rw [hno, hlen, hreassembles.regions.blockSize, hsends.blockSize]
    rfl
  have hfull : Bitmap.bits (r.slices j).retransmitMap
      = Finset.range (blocksIn r.blockSize (t.content (r.slices j).sliceNo).length) := by
    refine Finset.Subset.antisymm hholds.bits_subset fun k hk => ?_
    rw [hblocks, Finset.mem_range] at hk
    obtain ⟨j', hj', hno', hset⟩ := hslot k hk
    have hsame : j' = j := hturns.consistent.unique j' j (by simp [hj']) (by simp [hj])
      (hno'.trans hno.symm)
    rw [← hsame]
    exact Bitmap.mem_bits.mpr hset
  have hcontent : (t.content (r.slices j).sliceNo).length = t.size (r.slices j).sliceNo :=
    Transfer.length_content (by rw [hno]; exact h0)
  have hbytes' : (r.slices j).bytes = t.size (r.slices j).sliceNo := hturns.sized.bytes_receiving hj
  have hphase : r.phase = .completing j := by
    apply (hkeeps.completing j hj hdata).mpr
    rw [Full, ← hreassembles.regions.blockSize, ← hcontent]
    exact hfull
  refine Or.inr (Or.inr ⟨j, 0, hphase, by simp [hj], hno, Or.inl (by omega), _, ?_,
    hholds.full_iff.mpr hfull⟩)
  rw [hbytes', ← hcontent]
  exact hholds.blocksInSlice_eq

end Repairs

/-- Repair.  In every run, of any mode, in which the RETRANSMITs that reach the sender have been sent
by their receivers: at the REQACK that ends a round of a slice, every participant who has answered in
it without being ready has joined, and each block that it does not have has been sent in the round,
with the bytes that the ring had for it. -/
theorem reqack_served (config : NetConfig) (db : ParticipantsDb) (x₀ x : Sender) (s : System)
    (rounds : Fin 8 → Round) (a : SendData.Action) (i : Fin 8) (cl : ℕ)
    (hstart : Sender.start config db = some x₀)
    (hrun : Run.Reach (Run.observe step noteRounds) (fun p a => Requested p.1 a)
      (System.start x₀, fun _ => ⟨[], []⟩) (s, rounds))
    (hs : SendData.step s.sender a = some x) (hslot : reqackSlot s.sender a x = some i)
    (hasks : (s.sender.slices i).Asks cl)
    (hblocks : s.sender.config.nrBlocks (s.sender.slices i).bytes ≤ 1024) :
    ∃ r, s.receivers cl = some r ∧
      ∀ k < s.sender.config.nrBlocks (s.sender.slices i).bytes,
        Held r (s.sender.slices i).sliceNo k ∨ ∃ ring : Fifo,
          (ring, ringPacket s.sender.config.blockSize (s.sender.slices i) ring k) ∈ (rounds i).sent := by
  obtain ⟨h, hround⟩ := hrun.invariant (I := fun p => Repairs p.1 ∧ InRound p.1.sender p.2)
    ⟨repairs_start hstart, inRound_start hstart _⟩ fun p a p' ⟨h, hround⟩ ha hobs => by
      obtain ⟨hstep, hnote⟩ := Run.observe_eq_some.mp hobs
      rw [hnote]
      exact ⟨h.step ha hstep, inRound_noteRounds hround h.sound hstep⟩
  exact h.served hround hs hslot hasks hblocks

instance (s : System) : (a : Action) → Decidable (Requested s a)
  | .sender (.arrive (.retransmit n cl map rxmit)) => inferInstanceAs (Decidable
      (∃ r ∈ s.receivers cl, ReceiveData.Event.retransmit n rxmit map ∈ r.trace))
  | .sender (.arrive (.ok _ _)) | .sender (.arrive (.disconnect _)) | .sender .enqueue
  | .sender .dispatch | .sender .advance | .sender .wake | .sender .timeout | .sender .readerWait
  | .sender (.read _) | .sender .readerConsumed | .sender .readerWrite | .sender .readerProduced
  | .receiver _ _ | .join _ _ _ => inferInstanceAs (Decidable True)

/-- Receiver 0 gets the second block and the REQACK, receiver 1 both blocks. -/
def loseFirst : List Action :=
  [.join 0 500 [], .join 1 500 [], .receiver 0 .seed, .receiver 1 .seed] ++
    (readBytes [1, 2, 3, 4, 5, 6, 7, 8] ++ [SendData.Action.readerWait, .read []] ++
      List.replicate 6 SendData.Action.advance).map Action.sender ++
    [ReceiveData.Action.receive 0 0 (.data ⟨0, 1, 8⟩ [5, 6, 7, 8]), .scan 0,
      .receive 0 0 (.reqack ⟨0, 8, 0⟩), .scan 0].map (Action.receiver 0) ++
    [ReceiveData.Action.receive 0 0 (.data ⟨0, 0, 8⟩ [1, 2, 3, 4]), .scan 0,
      .receive 0 0 (.data ⟨0, 1, 8⟩ [5, 6, 7, 8]), .complete, .scan 0].map (Action.receiver 1)

/-- The block is sent again, and the next REQACK is due. -/
def repairFirst : List Action :=
  (message (.retransmit 0 0 (Bitmap.insert 0 1) 0) ++ message (.ok 0 1) ++
    [SendData.Action.dispatch, .dispatch] ++ List.replicate 10 SendData.Action.advance).map
      Action.sender

theorem reqack_served_firstBlock : ∃ (rounds : Fin 8 → Round) (x : Sender) (ring : Fifo),
    (ring, ringPacket 4 (x.slices 0) ring 0) ∈ (rounds 0).sent ∧
      (rounds 0).packets = List.replicate 2 (.data ⟨0, 0, 8⟩ [1, 2, 3, 4]) := by
  have hexec : ((Sender.start halfDuplex twoParticipants).bind fun x =>
      (Run.exec (Run.observe step noteRounds) (fun p a => Requested p.1 a)
        (System.start x, fun _ => ⟨[], []⟩) (loseFirst ++ repairFirst)).bind fun p =>
          (SendData.step p.1.sender .advance).map fun x' => (x, p, x')).map
      (fun q => decide (reqackSlot q.2.1.1.sender .advance q.2.2 = some 0 ∧
        (q.2.1.1.sender.slices 0).Asks 0 ∧ (q.2.1.1.sender.slices 0).sliceNo = 0 ∧
        (q.2.1.1.sender.slices 0).bytes = 8 ∧ q.2.1.1.sender.config.nrBlocks 8 = 2 ∧
        q.2.1.1.sender.config.blockSize = 4 ∧ (∀ r ∈ q.2.1.1.receivers 0, ¬Held r 0 0) ∧
        (q.2.1.2 0).packets = List.replicate 2 (.data ⟨0, 0, 8⟩ [1, 2, 3, 4]))) = some true := by
    decide +kernel
  obtain ⟨q, hq, hp⟩ := Option.map_eq_some_iff.mp hexec
  obtain ⟨x₀, hstart, hq⟩ := Option.bind_eq_some_iff.mp hq
  obtain ⟨⟨s, rounds⟩, hrun, hq⟩ := Option.bind_eq_some_iff.mp hq
  obtain ⟨x, hs, rfl⟩ := Option.map_eq_some_iff.mp hq
  obtain ⟨hslot, hasks, hno, hbytes, hblocks, hsize, hmissing, hpackets⟩ := of_decide_eq_true hp
  dsimp only at hslot hasks hno hbytes hblocks hsize hmissing hpackets hs
  obtain ⟨r, hr, hall⟩ := reqack_served halfDuplex twoParticipants x₀ x s rounds .advance 0 0 hstart
    (Run.reach_of_exec hrun) hs hslot hasks (by rw [hbytes, hblocks]; decide)
  rw [hbytes, hblocks, hno, hsize] at hall
  obtain ⟨ring, hsent⟩ := (hall 0 (by decide)).resolve_left (hmissing r hr)
  exact ⟨rounds, s.sender, ring, hsent, hpackets⟩

end Udpcast.EndToEnd
