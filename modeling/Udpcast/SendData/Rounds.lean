import Udpcast.SendData.Config
import Udpcast.SendData.Intact

/-!
# The rounds of a slice

A round goes from one REQACK of a slice to the next.  An observer of the main loop notes, for every
slot, the maps of the RETRANSMITs that have been dispatched in the round and the packets that
`rexmit_slice` has sent in it, each with the ring at its sending.
-/

namespace Udpcast.SendData

open Sender

/-- The round of a slot. -/
structure Round where
  maps : List Bitmap
  sent : List (Fifo × Datagram)

def Round.packets (r : Round) : List Datagram := r.sent.map Prod.snd

/-- The slot for which the step calls `send_reqack`. -/
def reqackSlot (x : Sender) (a : Action) (x' : Sender) : Option (Fin 8) :=
  match a, x.phase with
  | .advance, .sending i => some i
  | .advance, .reqacking (i :: _) nrPart _ =>
    if (x.slices i).state ≠ .acked ∧ (x.slices i).nrAnswered ≥ nrPart then some i else none
  | .timeout, _ => if x'.phase = .returned then none else x.pending.head?
  | _, _ => none

/-- What the observer notes in a step without a REQACK. -/
def noteRound (x : Sender) (a : Action) (x' : Sender) (rounds : Fin 8 → Round) : Fin 8 → Round :=
  match a, x.phase, x.msgs with
  | .dispatch, _, .retransmit sliceNo _ map _ :: _ =>
    match findSlice x sliceNo with
    | some i => Function.update rounds i { rounds i with maps := (rounds i).maps ++ [map] }
    | none => rounds
  | .advance, .rexmitting (i :: _) _, _ =>
    Function.update rounds i
      { rounds i with
        sent := (rounds i).sent ++ (x'.sent.drop x.sent.length).map fun d => (x.fifo, d) }
  | _, _, _ => rounds

/-- A REQACK begins a new round. -/
def seeRound (x : Sender) (a : Action) (x' : Sender) (rounds : Fin 8 → Round) : Fin 8 → Round :=
  match reqackSlot x a x' with
  | some i => Function.update rounds i ⟨[], []⟩
  | none => noteRound x a x' rounds

/-- The blocks that at least one of the maps does not have. -/
def askedFor (blocks : ℕ) (maps : List Bitmap) : List ℕ :=
  (List.range blocks).filter fun k => maps.any fun map => !map.getLsbD k

/-- The DATA packet of a block of a slice, with the bytes that the ring has for it. -/
def ringPacket (blockSize : ℕ) (s : Slice) (ring : Fifo) (k : ℕ) : Datagram :=
  .data ⟨s.sliceNo, asU16 k, asI32 s.bytes⟩
    (blockOf blockSize (Ring.window ring.dataBufSize s.base s.bytes ring.buffer) k)

/-- What has been sent are two copies of each of the blocks of a slice, with the bytes that the ring
had for it then. -/
def CopiesOf (blockSize : ℕ) (s : Slice) (blocks : List ℕ) (sent : List (Fifo × Datagram)) : Prop :=
  ∃ ring : ℕ → Fifo, sent.Perm (twice (fun k => (ring k, ringPacket blockSize s (ring k) k)) blocks)

/-! ### A slot in its round -/

/-- The maps of a slot and what the observer has noted for it. -/
structure RoundOf (blockSize : ℕ) (s : Slice) (blocks : ℕ) (r : Round) : Prop where
  requested : ∀ k < 1024, s.rxmitMap.getLsbD k = r.maps.any fun map => !map.getLsbD k
  sub : ∀ k, s.isXmittedMap.getLsbD k = true → s.rxmitMap.getLsbD k = true
  served : s.needRxmit = false → ∀ k < blocks, s.rxmitMap.getLsbD k = true →
    s.isXmittedMap.getLsbD k = true
  copies : CopiesOf blockSize s ((List.range blocks).filter s.isXmittedMap.getLsbD) r.sent

section RoundOf

variable {x : Sender} {s s' : Slice} {blockSize blocks : ℕ} {r : Round}

theorem RoundOf.congr (h : RoundOf blockSize s blocks r) (hno : s'.sliceNo = s.sliceNo)
    (hbase : s'.base = s.base) (hbytes : s'.bytes = s.bytes) (hmap : s'.rxmitMap = s.rxmitMap)
    (hxmitted : s'.isXmittedMap = s.isXmittedMap) (hneed : s'.needRxmit = s.needRxmit) :
    RoundOf blockSize s' blocks r where
  requested := by rw [hmap]; exact h.requested
  sub := by rw [hmap, hxmitted]; exact h.sub
  served := by rw [hmap, hxmitted, hneed]; exact h.served
  copies := by
    simp only [hxmitted, CopiesOf, ringPacket, hno, hbase, hbytes]
    exact h.copies

theorem roundOf_new (ring : Fifo) (hmap : s.rxmitMap = 0) (hxmitted : s.isXmittedMap = 0) :
    RoundOf blockSize s blocks ⟨[], []⟩ where
  requested k _ := by rw [hmap, Bitmap.getLsbD_zero]; rfl
  sub k hk := by rw [hxmitted, Bitmap.getLsbD_zero] at hk; cases hk
  served _ k _ hk := by rw [hmap, Bitmap.getLsbD_zero] at hk; cases hk
  copies := by
    have hnil : (List.range blocks).filter s.isXmittedMap.getLsbD = [] := by
      refine List.filter_eq_nil_iff.mpr fun k _ => ?_
      rw [hxmitted, Bitmap.getLsbD_zero]
      exact Bool.false_ne_true
    rw [hnil]
    exact ⟨fun _ => ring, List.Perm.nil⟩

theorem RoundOf.missing (h : RoundOf blockSize s blocks r) (cl : ℕ) (map : Bitmap) :
    RoundOf blockSize (s.missing cl map) blocks { r with maps := r.maps ++ [map] } := by
  have hrest : RoundOf blockSize { s with rxmitMap := s.rxmitMap ||| ~~~map, needRxmit := true }
      blocks { r with maps := r.maps ++ [map] } :=
    { requested := fun k hk => by
        rw [BitVec.getLsbD_or, BitVec.getLsbD_not, decide_eq_true hk, Bool.true_and,
          h.requested k hk, List.any_append, List.any_cons, List.any_nil, Bool.or_false]
      sub := fun k hk => by
        rw [BitVec.getLsbD_or, h.sub k hk, Bool.true_or]
      served := nofun
      copies := h.copies }
  rw [Slice.missing]
  split
  · exact hrest
  · exact hrest.congr rfl rfl rfl rfl rfl rfl

/-- Blocks of which some have been sent before. -/
theorem twice_append {α : Type*} {packet packet' : ℕ → α} {l : List ℕ} {p q : ℕ → Bool}
    (hpq : ∀ k, p k = true → q k = false) :
    (twice packet (l.filter p) ++ twice packet' (l.filter q)).Perm
      (twice (fun k => if p k then packet k else packet' k) (l.filter fun k => p k || q k)) := by
  have hp : (l.filter fun k => p k || q k).filter p = l.filter p := by
    rw [List.filter_filter]
    exact List.filter_congr fun k _ => by cases p k <;> simp
  have hq : (l.filter fun k => p k || q k).filter (fun k => !p k) = l.filter q := by
    rw [List.filter_filter]
    refine List.filter_congr fun k _ => ?_
    cases hk : p k with
    | false => simp
    | true => simp [hpq k hk]
  have hperm := List.filter_append_perm p (l.filter fun k => p k || q k)
  rw [hp, hq] at hperm
  refine List.Perm.trans ?_ (hperm.flatMap_right _)
  rw [List.flatMap_append]
  refine List.Perm.append (List.Perm.of_eq ?_) (List.Perm.of_eq ?_)
  · exact List.flatMap_congr fun k hk => by simp only [if_pos (List.of_mem_filter hk)]
  · refine List.flatMap_congr fun k hk => ?_
    have hnot : p k ≠ true := fun hpk => by
      have := hpq k hpk
      rw [List.of_mem_filter hk] at this
      cases this
    simp only [if_neg hnot]

/-- The packets of a retransmission have the bytes of the ring at its step. -/
theorem Resent.copies {map : Bitmap} {ds : List Datagram} (hN : 0 < x.fifo.dataBufSize)
    (hbytes : s.bytes ≤ x.fifo.dataBufSize)
    (h : Resent x s (List.range (x.config.nrBlocks s.bytes)) map ds) :
    ds.map (fun d => (x.fifo, d)) = twice (fun k => (x.fifo, ringPacket x.config.blockSize s x.fifo k))
      ((List.range (x.config.nrBlocks s.bytes)).filter s.wanted) := by
  obtain ⟨packet, rfl, hpacket⟩ := h.packets
  have heq : ∀ k ∈ (List.range (x.config.nrBlocks s.bytes)).filter s.wanted,
      packet k = ringPacket x.config.blockSize s x.fifo k := fun k hk =>
    dataPacket_eq hN hbytes (List.mem_range.mp (List.mem_of_mem_filter hk)) (hpacket k hk)
  rw [twice, twice, List.map_flatMap]
  exact List.flatMap_congr fun k hk => by rw [heq k hk]; rfl

theorem RoundOf.rexmitted {map : Bitmap} {good : ℕ} {ds : List Datagram}
    (h : RoundOf x.config.blockSize s (x.config.nrBlocks s.bytes) r) (hN : 0 < x.fifo.dataBufSize)
    (hbytes : s.bytes ≤ x.fifo.dataBufSize)
    (hds : Resent x s (List.range (x.config.nrBlocks s.bytes)) map ds) :
    RoundOf x.config.blockSize (s.rexmitted map good) (x.config.nrBlocks s.bytes)
      { r with sent := r.sent ++ ds.map fun d => (x.fifo, d) } := by
  have hwanted : ∀ k, s.wanted k = true → s.rxmitMap.getLsbD k = true := fun k hk =>
    (Bool.and_eq_true_iff.mp hk).1
  refine ⟨h.requested, fun k hk => ?_, fun _ k hk hmap => ?_, ?_⟩
  · show s.rxmitMap.getLsbD k = true
    rw [show (s.rexmitted map good).isXmittedMap = map from rfl, hds.map, Bool.or_eq_true,
      Bool.and_eq_true] at hk
    rcases hk with hk | hk
    · exact h.sub k hk
    · exact hwanted k hk.2
  · show map.getLsbD k = true
    have hmap : s.rxmitMap.getLsbD k = true := hmap
    rw [hds.map, decide_eq_true (List.mem_range.mpr hk), Slice.wanted, hmap]
    cases s.isXmittedMap.getLsbD k <;> rfl
  · obtain ⟨ring, hcopies⟩ := h.copies
    refine ⟨fun k => if s.isXmittedMap.getLsbD k then ring k else x.fifo, ?_⟩
    have hfilter : (List.range (x.config.nrBlocks s.bytes)).filter
          (s.rexmitted map good).isXmittedMap.getLsbD
        = (List.range (x.config.nrBlocks s.bytes)).filter fun k =>
            s.isXmittedMap.getLsbD k || s.wanted k :=
      List.filter_congr fun k hk => by
        rw [show (s.rexmitted map good).isXmittedMap = map from rfl, hds.map, decide_eq_true hk,
          Bool.true_and]
    have hdisjoint : ∀ k, s.isXmittedMap.getLsbD k = true → s.wanted k = false := by
      intro k hk
      rw [Slice.wanted, hk]
      exact Bool.and_false _
    rw [hfilter, hds.copies hN hbytes]
    refine (hcopies.append_right _).trans ((twice_append hdisjoint).trans (List.Perm.of_eq ?_))
    refine List.flatMap_congr fun k _ => ?_
    by_cases hx : s.isXmittedMap.getLsbD k = true
    · simp only [if_pos hx]
      rfl
    · simp only [if_neg hx]
      rfl

end RoundOf

/-! ### The loop over the pending slices -/

/-- Behind the second loop over the pending slices no request is left. -/
def ServedAt (x : Sender) : Phase → Prop
  | .rexmitting rest _ => ∀ i ∉ rest, (x.slices i).state = .xmitted →
      (x.slices i).needRxmit = false
  | .reqacking _ _ _ | .forming | .encoding _ | .sending _ | .waiting =>
      ∀ i, (x.slices i).state = .xmitted → (x.slices i).needRxmit = false
  | .top | .acking _ _ _ | .returned => True

structure InRound (x : Sender) (rounds : Fin 8 → Round) : Prop where
  slots : ∀ i, (x.slices i).state = .xmitted →
    RoundOf x.config.blockSize (x.slices i) (x.config.nrBlocks (x.slices i).bytes) (rounds i)
  served : ServedAt x x.phase

/-- A slice that has been sent has the same maps as before. -/
def SameRound (s s' : Slice) : Prop :=
  s'.state = .xmitted → s.state = .xmitted ∧ s'.sliceNo = s.sliceNo ∧ s'.base = s.base ∧
    s'.bytes = s.bytes ∧ s'.rxmitMap = s.rxmitMap ∧ s'.isXmittedMap = s.isXmittedMap ∧
    s'.needRxmit = s.needRxmit

section InRound

variable {x x' : Sender} {a : Action} {rounds rounds' : Fin 8 → Round}

theorem SameRound.refl (s : Slice) : SameRound s s := fun h => ⟨h, rfl, rfl, rfl, rfl, rfl, rfl⟩

theorem sameRound_ready (s : Slice) (cl : ℕ) : SameRound s (s.ready cl) := by
  rw [Slice.ready]
  split
  · split
    · exact SameRound.refl s
    · exact fun h => ⟨h, rfl, rfl, rfl, rfl, rfl, rfl⟩
  · split
    · exact fun h => ⟨h, rfl, rfl, rfl, rfl, rfl, rfl⟩
    · exact fun h => ⟨h, rfl, rfl, rfl, rfl, rfl, rfl⟩

theorem sameRound_forget (s : Slice) (cl : ℕ) : SameRound s (s.forget cl) := by
  rw [Slice.forget]
  split
  · split
    · exact fun h => ⟨h, rfl, rfl, rfl, rfl, rfl, rfl⟩
    · exact fun h => ⟨h, rfl, rfl, rfl, rfl, rfl, rfl⟩
  · split
    · exact fun h => ⟨h, rfl, rfl, rfl, rfl, rfl, rfl⟩
    · exact SameRound.refl s

theorem sameRound_modify {f : Slice → Slice} {i : Fin 8}
    (h : SameRound (x.slices i) (f (x.slices i))) (j : Fin 8) :
    SameRound (x.slices j) ((x.modify i f).slices j) := by
  by_cases hji : j = i
  · subst hji
    rw [modify_slices_self]
    exact h
  · rw [modify_slices_of_ne _ _ _ hji]
    exact SameRound.refl _

theorem ServedAt.congr {p : Phase} (h : ServedAt x p)
    (hs : ∀ j, SameRound (x.slices j) (x'.slices j)) : ServedAt x' p := by
  have hsame : ∀ j, ((x.slices j).state = .xmitted → (x.slices j).needRxmit = false) →
      (x'.slices j).state = .xmitted → (x'.slices j).needRxmit = false := by
    intro j hj hstate
    obtain ⟨hstate', -, -, -, -, -, hneed⟩ := hs j hstate
    exact hneed.trans (hj hstate')
  cases p with
  | top => trivial
  | acking rest nr fr => trivial
  | rexmitting rest fl => exact fun j hj => hsame j (h j hj)
  | reqacking rest nr fr => exact fun j => hsame j (h j)
  | forming => exact fun j => hsame j (h j)
  | encoding i => exact fun j => hsame j (h j)
  | sending i => exact fun j => hsame j (h j)
  | waiting => exact fun j => hsame j (h j)
  | returned => trivial

theorem InRound.update (h : InRound x rounds) (i : Fin 8)
    (hc : x'.config.blockSize = x.config.blockSize)
    (hself : (x'.slices i).state = .xmitted →
      RoundOf x.config.blockSize (x'.slices i) (x.config.nrBlocks (x'.slices i).bytes) (rounds' i))
    (hother : ∀ j ≠ i, SameRound (x.slices j) (x'.slices j) ∧ rounds' j = rounds j)
    (hserved : ServedAt x' x'.phase) : InRound x' rounds' := by
  have hblocks : ∀ bytes, x'.config.nrBlocks bytes = x.config.nrBlocks bytes := fun bytes => by
    rw [NetConfig.nrBlocks, NetConfig.nrBlocks, hc]
  refine ⟨fun j hj => ?_, hserved⟩
  rw [hblocks, hc]
  by_cases hji : j = i
  · subst hji
    exact hself hj
  · obtain ⟨hsame, hround⟩ := hother j hji
    obtain ⟨hj', hno, hbase, hbytes, hmap, hxmitted, hneed⟩ := hsame hj
    rw [hbytes, hround]
    exact (h.slots j hj').congr hno hbase hbytes hmap hxmitted hneed

theorem InRound.keep (h : InRound x rounds) (hc : x'.config.blockSize = x.config.blockSize)
    (hs : ∀ j, SameRound (x.slices j) (x'.slices j)) (hserved : ServedAt x' x'.phase) :
    InRound x' rounds := by
  refine h.update 0 hc (fun h0 => ?_) (fun j _ => ⟨hs j, rfl⟩) hserved
  obtain ⟨h0', hno, hbase, hbytes, hmap, hxmitted, hneed⟩ := hs 0 h0
  rw [hbytes]
  exact (h.slots 0 h0').congr hno hbase hbytes hmap hxmitted hneed

theorem InRound.beside (h : InRound x rounds) (hc : x'.config = x.config)
    (hs : x'.slices = x.slices) (hp : x'.phase = x.phase) : InRound x' rounds := by
  refine h.keep (by rw [hc]) (fun j => by rw [hs]; exact SameRound.refl _) ?_
  rw [hp]
  exact h.served.congr fun j => by rw [hs]; exact SameRound.refl _

theorem Goto.servedAt {p : Phase} (h : Goto x a p) (hc : Control x) (hx : ServedAt x x.phase) :
    ServedAt x p := by
  cases h with
  | top _ _ => trivial
  | notReady _ => trivial
  | acked _ => exact fun i hi hs => absurd (hc.xmitted i hs) hi
  | @complete i rest fl hp hneed =>
    rw [hp] at hx
    intro j hj hs
    by_cases hji : j = i
    · rw [hji]
      exact hneed
    · exact hx j (fun hmem => (List.mem_cons.mp hmem).elim hji hj) hs
  | rexmitted _ => trivial
  | rexmittedNone hp =>
    rw [hp] at hx
    exact fun i hs => hx i List.not_mem_nil hs
  | notAnswered hp _ =>
    rw [hp] at hx
    exact hx
  | reqacked hp =>
    rw [hp] at hx
    exact hx
  | noSlot _ => trivial
  | wait hp =>
    rw [hp] at hx
    exact hx
  | woken _ _ => trivial

theorem Goto.seeRound {p : Phase} (h : Goto x a p) :
    seeRound x a { x with phase := p } rounds = rounds := by
  cases h with
  | top hp _ => simp only [SendData.seeRound, reqackSlot, noteRound, hp]
  | notReady hp => simp only [SendData.seeRound, reqackSlot, noteRound, hp]
  | acked hp => simp only [SendData.seeRound, reqackSlot, noteRound, hp]
  | complete hp _ =>
    simp only [SendData.seeRound, reqackSlot, noteRound, hp, List.drop_length, List.map_nil,
      List.append_nil]
    exact Function.update_eq_self _ _
  | rexmitted hp => simp only [SendData.seeRound, reqackSlot, noteRound, hp]
  | rexmittedNone hp => simp only [SendData.seeRound, reqackSlot, noteRound, hp]
  | notAnswered hp hnot => simp only [SendData.seeRound, reqackSlot, noteRound, hp, if_neg hnot]
  | reqacked hp => simp only [SendData.seeRound, reqackSlot, noteRound, hp]
  | noSlot hp => simp only [SendData.seeRound, reqackSlot, noteRound, hp]
  | wait hp => simp only [SendData.seeRound, reqackSlot, noteRound, hp]
  | woken hp ha =>
    rcases ha with rfl | ⟨rfl, hpending⟩
    · rfl
    · simp only [SendData.seeRound, reqackSlot, noteRound, hpending, List.head?_nil, ite_self]

theorem InRound.retransmit (h : InRound x rounds) {cl : ℕ} {map : Bitmap} {i : Fin 8}
    (hc : x'.config.blockSize = x.config.blockSize)
    (hslices : x'.slices = Function.update x.slices i ((x.slices i).missing cl map))
    (hserved : ServedAt x' x'.phase) :
    InRound x' (Function.update rounds i
      { rounds i with maps := (rounds i).maps ++ [map] }) := by
  have hself : x'.slices i = (x.slices i).missing cl map := by rw [hslices, Function.update_self]
  refine h.update i hc (fun hstate => ?_) (fun j hj => ?_) hserved
  · rw [hself, (sameSlice_missing _ cl map).state] at hstate
    rw [hself, Function.update_self, (sameSlice_missing _ cl map).bytes]
    exact (h.slots i hstate).missing cl map
  · rw [hslices, Function.update_of_ne hj, Function.update_of_ne hj]
    exact ⟨SameRound.refl _, rfl⟩

theorem InRound.message (h : InRound x rounds) {m : IncomingMsg} {rest : List IncomingMsg}
    (hphase : x.phase = .top) (hmsgs : x.msgs = m :: rest) :
    InRound (handleMessage { x with msgs := rest } m)
      (seeRound x .dispatch (handleMessage { x with msgs := rest } m) rounds) := by
  have hfind : ∀ s, findSlice { x with msgs := rest } s = findSlice x s := fun _ => rfl
  have htop : ∀ x' : Sender, x'.phase = x.phase → ServedAt x' x'.phase := fun x' hp => by
    rw [hp, hphase]
    trivial
  cases m with
  | ok s cl =>
    simp only [seeRound, reqackSlot, noteRound, hmsgs, handleMessage, hfind]
    cases findSlice x s with
    | none => exact h.keep rfl (fun j => SameRound.refl _) (htop _ rfl)
    | some i =>
      exact h.keep rfl (sameRound_modify (f := (·.ready cl)) (sameRound_ready _ cl)) (htop _ rfl)
  | retransmit s cl map rxmit =>
    cases hslot : findSlice x s with
    | none =>
      simp only [seeRound, reqackSlot, noteRound, hmsgs, handleMessage, hfind, hslot]
      exact h.keep rfl (fun j => SameRound.refl _) (htop _ rfl)
    | some i =>
      simp only [seeRound, reqackSlot, noteRound, hmsgs, handleMessage, hfind, hslot]
      exact h.retransmit rfl rfl (htop _ rfl)
  | disconnect cl =>
    simp only [seeRound, reqackSlot, noteRound, hmsgs, handleMessage]
    exact h.keep rfl (fun j => sameRound_forget _ cl) (htop _ rfl)

theorem InRound.reqacked (h : InRound x rounds) {y : Sender} (i : Fin 8)
    (hy : ∀ j ≠ i, SameRound (x.slices j) (y.slices j))
    (hc : y.config.blockSize = x.config.blockSize) (hslices : x'.slices = (requested y i).slices)
    (hblock : x'.config.blockSize = y.config.blockSize) (hserved : ServedAt x' x'.phase) :
    InRound x' (Function.update rounds i ⟨[], []⟩) := by
  refine h.update i (hblock.trans hc) (fun _ => ?_) (fun j hj => ?_) hserved
  · rw [hslices, requested_slices_self, Function.update_self]
    exact roundOf_new x.fifo rfl rfl
  · rw [hslices, requested_slices_of_ne _ hj, Function.update_of_ne hj]
    exact ⟨hy j hj, rfl⟩

theorem InRound.step (h : InRound x rounds) (hsound : Sound x) (hs : StepTo x a x') :
    InRound x' (seeRound x a x' rounds) := by
  have hserved := h.served
  have hc := hsound.control
  cases hs with
  | arrive _ _ => exact h.beside rfl rfl rfl
  | enqueue _ => exact h.beside rfl rfl rfl
  | dispatch hphase hmsgs => exact h.message hphase hmsgs
  | goto hgoto =>
    rw [hgoto.seeRound]
    exact h.keep rfl (fun j => SameRound.refl _)
      ((hgoto.servedAt hc hserved).congr fun j => SameRound.refl _)
  | retain hphase =>
    have hsee : seeRound x .advance { retainPending x with phase := .top } rounds = rounds := by
      rcases hphase with hp | hp
      · simp only [seeRound, reqackSlot, noteRound, hp]
      · simp only [seeRound, reqackSlot, noteRound, hp]
    rw [hsee]
    exact h.keep rfl (fun j => SameRound.refl _) trivial
  | @acked i rest nr fr c q hphase _ hconfig _ =>
    simp only [seeRound, reqackSlot, noteRound, hphase]
    refine h.update i (growSliceSize_blockSize hconfig) (fun hstate => ?_) (fun j hj => ⟨?_, rfl⟩)
      trivial
    · have hfree : ((released x i c q).slices i).state = .xmitted := hstate
      rw [released_slices_self] at hfree
      cases hfree
    · show SameRound _ ((released x i c q).slices j)
      rw [released_slices_of_ne _ _ _ hj]
      exact SameRound.refl _
  | @rexmit i rest fl map good ds hphase hds =>
    have hnew : (x.sent ++ ds).drop x.sent.length = ds := List.drop_left' rfl
    have hself : (x.modify i fun s => s.rexmitted map good).slices i
        = (x.slices i).rexmitted map good := modify_slices_self ..
    have hother : ∀ j ≠ i, (x.modify i fun s => s.rexmitted map good).slices j = x.slices j :=
      fun j hj => modify_slices_of_ne _ _ _ hj
    simp only [seeRound, reqackSlot, noteRound, hphase, send_sent]
    rw [hphase] at hserved
    refine h.update i rfl (fun hstate => ?_) (fun j hj => ?_) fun j hj hstate => ?_
    · rw [send_slices, hself] at hstate ⊢
      rw [Function.update_self]
      show RoundOf _ _ _ { rounds i with
        sent := _ ++ ((x.sent ++ ds).drop x.sent.length).map fun d => (x.fifo, d) }
      rw [hnew]
      obtain ⟨F, R, P, D, hq⟩ := hsound.queues
      exact (h.slots i hstate).rexmitted hq.pos (hq.bytes_le (Or.inr hstate)) hds
    · rw [Function.update_of_ne hj, send_slices, hother j hj]
      exact ⟨SameRound.refl _, rfl⟩
    · rw [send_slices] at hstate ⊢
      by_cases hji : j = i
      · rw [hji, hself]
        rfl
      · rw [hother j hji] at hstate ⊢
        exact hserved j (fun hmem => (List.mem_cons.mp hmem).elim hji hj) hstate
  | @reqack i rest nr fr rxmitId hphase hanswered =>
    simp only [seeRound, reqackSlot, hphase, if_pos hanswered]
    rw [hphase] at hserved
    have hother : ∀ j ≠ i, (bumped x i rxmitId).slices j = x.slices j := fun j hj =>
      bumped_slices_of_ne _ _ hj
    refine h.reqacked (y := bumped x i rxmitId) i (fun j hj => ?_) rfl rfl
      (reduceSliceSize_blockSize _ _) fun j hstate => ?_
    · rw [hother j hj]
      exact SameRound.refl _
    · have hstate : ((requested (bumped x i rxmitId) i).slices j).state = .xmitted := hstate
      show ((requested (bumped x i rxmitId) i).slices j).needRxmit = false
      by_cases hji : j = i
      · rw [hji, requested_slices_self]
        rfl
      · rw [requested_slices_of_ne _ hji, hother j hji] at hstate ⊢
        exact hserved j hstate
  | asyncRound hasync => exact absurd hasync hc.not_asyncRound
  | @form pos bytes m data hphase _ _ _ _ _ _ =>
    simp only [seeRound, reqackSlot, noteRound, hphase]
    rw [hphase] at hserved
    have hkeep : ∀ j, SameRound (x.slices j) ((formed x pos bytes data).slices j) := by
      intro j
      by_cases hj : j = pos
      · rw [hj, formed_slices_self]
        exact nofun
      · rw [formed_slices_of_ne _ _ _ hj]
        exact SameRound.refl _
    refine h.keep rfl hkeep ?_
    have hall := hserved.congr hkeep
    have hp : (formed x pos bytes data).phase
      = if x.config.hasFlag flagFec ∧ bytes > 0 then .encoding pos else .sending pos := rfl
    rw [hp]
    split
    · exact hall
    · exact hall
  | finish hphase =>
    simp only [seeRound, reqackSlot, noteRound, hphase]
    exact h.keep rfl (fun j => SameRound.refl _) trivial
  | @encode i fecData hphase _ =>
    simp only [seeRound, reqackSlot, noteRound, hphase]
    rw [hphase] at hserved
    have hkeep := sameRound_modify (x := x) (f := fun s => { s with fecData := fecData }) (i := i)
      fun h => ⟨h, rfl, rfl, rfl, rfl, rfl, rfl⟩
    exact h.keep rfl hkeep (hserved.congr hkeep)
  | @transmit i ds hphase _ _ =>
    simp only [seeRound, reqackSlot, hphase]
    refine h.reqacked (y := transmitted x i ds) i (fun j hj => ?_) rfl rfl
      (reduceSliceSize_blockSize _ _) trivial
    rw [transmitted_slices_of_ne _ _ hj]
    exact SameRound.refl _
  | @transmitAsync i ds c q hphase _ hconfig _ _ =>
    simp only [seeRound, reqackSlot, hphase]
    refine h.update i (growSliceSize_blockSize hconfig) (fun hstate => ?_) (fun j hj => ?_) trivial
    · have hfree : ((released (x.send ds) i c q).slices i).state = .xmitted := hstate
      rw [released_slices_self] at hfree
      cases hfree
    · rw [Function.update_of_ne hj]
      refine ⟨?_, rfl⟩
      show SameRound _ ((released (x.send ds) i c q).slices j)
      rw [released_slices_of_ne _ _ _ hj]
      exact SameRound.refl _
  | @timeout i rest rxmitId hphase hpending =>
    have hslot : reqackSlot x .timeout
        { requested (bumped { x with db := afterDrop x i } i rxmitId) i with phase := .top }
          = some i := by
      simp [reqackSlot, hpending]
    simp only [seeRound, hslot]
    refine h.reqacked (y := bumped { x with db := afterDrop x i } i rxmitId) i (fun j hj => ?_)
      rfl rfl (reduceSliceSize_blockSize _ _) trivial
    rw [bumped_slices_of_ne _ _ hj]
    exact SameRound.refl _
  | @allDropped i rest hphase hpending =>
    have hsee : seeRound x .timeout (SendData.finish { x with db := afterDrop x i }) rounds
        = rounds := by
      simp [seeRound, reqackSlot, noteRound, SendData.finish]
    rw [hsee]
    exact h.keep rfl (fun j => SameRound.refl _) trivial
  | readerWait _ hw =>
    rcases readerWait_frame hw with rfl | ⟨_, _, rfl⟩
    · exact h.beside rfl rfl rfl
    · exact h.beside rfl rfl rfl
  | readEnd _ => exact h.beside rfl rfl rfl
  | read _ _ => exact h.beside rfl rfl rfl
  | readerConsumed _ _ => exact h.beside rfl rfl rfl
  | readerWrite _ hw =>
    obtain rfl := Fifo.writeAt_frame hw
    exact h.beside rfl rfl rfl
  | readerProduced _ _ => exact h.beside rfl rfl rfl

end InRound

theorem inRound_start {config : NetConfig} {db : ParticipantsDb} {x : Sender}
    (h : Sender.start config db = some x) (rounds : Fin 8 → Round) : InRound x rounds := by
  simp only [Sender.start, Option.bind_eq_bind, Option.bind_eq_some_iff] at h
  obtain ⟨fifo, -, nrFec, -, c₁, -, c₂, -, h⟩ := h
  obtain rfl := Option.some.inj h
  exact ⟨fun i hi => (by cases hi), trivial⟩

/-! ### What a round sends -/

section

variable {x x' : Sender} {a : Action} {rounds : Fin 8 → Round} {i : Fin 8}

/-- `send_reqack` is called for a slot without requests that are left. -/
theorem InRound.served_of_reqack (h : InRound x rounds) (hs : SendData.step x a = some x')
    (hslot : reqackSlot x a x' = some i) (hstate : (x.slices i).state = .xmitted) :
    (x.slices i).needRxmit = false := by
  have hserved := h.served
  cases a with
  | advance =>
    cases hphase : x.phase with
    | sending j =>
      rw [hphase] at hserved
      exact hserved i hstate
    | reqacking rest nr fr =>
      rw [hphase] at hserved
      exact hserved i hstate
    | _ => simp [reqackSlot, hphase] at hslot
  | timeout =>
    simp only [SendData.step] at hs
    split at hs
    · rename_i hready
      rw [hready.1] at hserved
      exact hserved i hstate
    · cases hs
  | _ => cases hslot

/-- The blocks that have been sent in the round have been asked for. -/
theorem RoundOf.sublist {s : Slice} {blockSize blocks : ℕ} {r : Round}
    (h : RoundOf blockSize s blocks r) :
    ((List.range blocks).filter s.isXmittedMap.getLsbD).Sublist (askedFor blocks r.maps) := by
  refine List.monotone_filter_right _ fun k hk => ?_
  rw [← h.requested k (BitVec.lt_of_getLsbD hk)]
  exact h.sub k hk

/-- All blocks that have been asked for have been sent when no request is left. -/
theorem RoundOf.all {s : Slice} {blockSize blocks : ℕ} {r : Round} (h : RoundOf blockSize s blocks r)
    (hblocks : blocks ≤ 1024) (hneed : s.needRxmit = false) :
    (List.range blocks).filter s.isXmittedMap.getLsbD = askedFor blocks r.maps := by
  refine List.filter_congr fun k hk => ?_
  have hlt := List.mem_range.mp hk
  rw [← h.requested k (by omega)]
  cases hmap : s.rxmitMap.getLsbD k with
  | true => exact h.served hneed k hlt hmap
  | false =>
    by_contra hne
    rw [h.sub k (Bool.eq_true_of_not_eq_false hne)] at hmap
    cases hmap

end

/-- In every run and every round of a slice, `rexmit_slice` sends two copies of blocks that have
been asked for, each with the bytes of its block in the ring, and of all of them by the time of the
next REQACK. -/
theorem rexmit_slice_exact (config : NetConfig) (db : ParticipantsDb) (x₀ x : Sender)
    (rounds : Fin 8 → Round) (i : Fin 8) (hstart : Sender.start config db = some x₀)
    (hreach : Run.Reach (Run.observe step seeRound) (fun _ _ => True)
      (x₀, fun _ => ⟨[], []⟩) (x, rounds))
    (hstate : (x.slices i).state = .xmitted)
    (hblocks : x.config.nrBlocks (x.slices i).bytes ≤ 1024) :
    (∃ blocks, blocks.Sublist (askedFor (x.config.nrBlocks (x.slices i).bytes) (rounds i).maps) ∧
      CopiesOf x.config.blockSize (x.slices i) blocks (rounds i).sent) ∧
    ∀ a x', step x a = some x' → reqackSlot x a x' = some i →
      CopiesOf x.config.blockSize (x.slices i)
        (askedFor (x.config.nrBlocks (x.slices i).bytes) (rounds i).maps) (rounds i).sent := by
  have hruns := hreach.invariant (I := fun p => InRound p.1 p.2 ∧ Sound p.1)
    ⟨inRound_start hstart _, sound_start hstart⟩ fun p a p' ⟨hin, hsound⟩ _ hobs => by
      obtain ⟨hs, hsee⟩ := Run.observe_eq_some.mp hobs
      rw [hsee]
      exact ⟨hin.step hsound (step_cases hs), hsound.step (step_cases hs)⟩
  have hin : InRound x rounds := hruns.1
  have hround := hin.slots i hstate
  refine ⟨⟨_, hround.sublist, hround.copies⟩, fun a x' hs hslot => ?_⟩
  rw [← hround.all hblocks (hin.served_of_reqack hs hslot hstate)]
  exact hround.copies

/-- Both participants ask for the first of two blocks. -/
theorem rexmit_slice_exact_firstBlock : ∃ (x : Sender) (rounds : Fin 8 → Round),
    CopiesOf 4 (x.slices 0) [0] (rounds 0).sent ∧
      (rounds 0).packets = [.data ⟨0, 0, 8⟩ [1, 2, 3, 4], .data ⟨0, 0, 8⟩ [1, 2, 3, 4]] := by
  have hexec : ((Sender.start halfDuplex twoParticipants).bind fun x =>
      (Run.exec (Run.observe step seeRound) (fun _ _ => True) (x, fun _ => ⟨[], []⟩)
        (readBytes [1, 2, 3, 4, 5, 6, 7, 8] ++ [.readerWait, .read []] ++
          List.replicate 6 .advance ++ message (.retransmit 0 0 (Bitmap.insert 0 1) 0) ++
          message (.retransmit 0 1 (Bitmap.insert 0 1) 0) ++ [.dispatch, .dispatch] ++
          List.replicate 10 .advance)).bind fun p =>
            (step p.1 .advance).map fun x' => (x, p, x')).map
      (fun q => decide ((q.2.1.1.slices 0).state = .xmitted ∧
        q.2.1.1.config.blockSize = 4 ∧ q.2.1.1.config.nrBlocks (q.2.1.1.slices 0).bytes = 2 ∧
        (q.2.1.2 0).maps = [Bitmap.insert 0 1, Bitmap.insert 0 1] ∧
        reqackSlot q.2.1.1 .advance q.2.2 = some 0 ∧ (q.2.1.2 0).packets =
          [.data ⟨0, 0, 8⟩ [1, 2, 3, 4], .data ⟨0, 0, 8⟩ [1, 2, 3, 4]]))
      = some true := by decide +kernel
  obtain ⟨q, hq, hseen⟩ := Option.map_eq_some_iff.mp hexec
  obtain ⟨x₀, hstart, hq⟩ := Option.bind_eq_some_iff.mp hq
  obtain ⟨⟨x, rounds⟩, hexec, hq⟩ := Option.bind_eq_some_iff.mp hq
  obtain ⟨x', hs, rfl⟩ := Option.map_eq_some_iff.mp hq
  obtain ⟨hstate, hsize, hblocks, hmaps, hslot, hpackets⟩ := of_decide_eq_true hseen
  simp only at hstate hsize hblocks hmaps hslot hpackets hs
  have hcopies := (rexmit_slice_exact halfDuplex twoParticipants x₀ x rounds 0 hstart
    (Run.reach_of_exec hexec) hstate (by rw [hblocks]; decide)).2 .advance x' hs hslot
  have hasked : askedFor 2 [Bitmap.insert 0 1, Bitmap.insert 0 1] = [0] := by decide +kernel
  rw [hblocks, hmaps, hasked, hsize] at hcopies
  exact ⟨x, rounds, hcopies, hpackets⟩

end Udpcast.SendData
