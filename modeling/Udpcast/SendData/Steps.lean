import Udpcast.Lib.Run
import Udpcast.SendData.Model

/-!
# What one step of the sender can do

`StepTo` lists the steps of the machine with what they change.  A pending slice is acked and freed,
retransmitted, or given a new round; `Table` says in which states its slot is then found.
-/

namespace Udpcast.SendData

open Sender

/-! ### The fields after an update -/

section Fields

variable (x : Sender) (i : Fin 8) (f : Slice → Slice) (e : Event) (ds : List Datagram)

@[simp] theorem modify_slices_self : (x.modify i f).slices i = f (x.slices i) :=
  Function.update_self ..

theorem modify_slices_of_ne {j : Fin 8} (h : j ≠ i) : (x.modify i f).slices j = x.slices j :=
  Function.update_of_ne h ..

@[simp] theorem emit_slices : (x.emit e).slices = x.slices := rfl
@[simp] theorem send_slices : (x.send ds).slices = x.slices := rfl
@[simp] theorem send_sent : (x.send ds).sent = x.sent ++ ds := rfl
@[simp] theorem emit_trace : (x.emit e).trace = x.trace ++ [e] := rfl

end Fields

/-! ### Acking -/

/-- `ack_slice` and `free_slice` for slot `i`. -/
def released (x : Sender) (i : Fin 8) (config : NetConfig) (freeMemQueue : Produconsum) : Sender :=
  ({ x with config := config, fifo.freeMemQueue := freeMemQueue }.modify i
    fun s => { s with state := .free }).emit (.acked (x.slices i).sliceNo x.db.used)

theorem freeSlice_ackSlice {x x₁ : Sender} {i : Fin 8} (hstate : (x.slices i).state ≠ .acked)
    (h : ackSlice x i = some x₁) : (x₁.slices i).state = .acked ∧
      ∃ config q, growSliceSize x.config = some config ∧
        x.fifo.freeMemQueue.produce (x.slices i).bytes = some q ∧
        freeSlice x₁ i = released x i config q := by
  rw [ackSlice, if_neg hstate] at h
  obtain ⟨config, hconfig, h⟩ := Option.bind_eq_some_iff.mp h
  obtain ⟨q, hq, h⟩ := Option.bind_eq_some_iff.mp h
  obtain rfl := Option.some.inj h
  refine ⟨by rw [emit_slices, modify_slices_self], config, q, hconfig, hq, ?_⟩
  simp only [freeSlice, released, Sender.modify, Sender.emit, Function.update_self,
    Function.update_idem]

/-! ### Packets -/

/-- The packets with the blocks of slot `i`. -/
def IsData (x : Sender) (i : Fin 8) (d : Datagram) : Prop :=
  ∃ k < x.config.nrBlocks (x.slices i).bytes, dataPacket x (x.slices i) k = some d

/-- The packets with the parity blocks of slot `i`. -/
def IsFec (x : Sender) (i : Fin 8) (d : Datagram) : Prop :=
  ∃ k < x.config.fecRedundancy * x.config.fecStripes, fecPacket x (x.slices i) k = some d

def reqackOf (s : Slice) : Datagram := .reqack ⟨s.sliceNo, asI32 s.bytes, s.rxmitId⟩

theorem mem_of_mapM_some {α β : Type} {f : α → Option β} {l : List α} {l' : List β}
    (h : l.mapM f = some l') : ∀ b ∈ l', ∃ a ∈ l, f a = some b := by
  induction l generalizing l' with
  | nil =>
    rw [List.mapM_nil] at h
    obtain rfl := Option.some.inj h
    exact fun b hb => absurd hb List.not_mem_nil
  | cons a l ih =>
    rw [List.mapM_cons] at h
    obtain ⟨b, hb, h⟩ := Option.bind_eq_some_iff.mp h
    obtain ⟨bs, hbs, h⟩ := Option.bind_eq_some_iff.mp h
    obtain rfl := Option.some.inj h
    intro c hc
    rcases List.mem_cons.mp hc with rfl | hc
    · exact ⟨a, List.mem_cons_self, hb⟩
    · obtain ⟨a', ha', hc'⟩ := ih hbs c hc
      exact ⟨a', List.mem_cons_of_mem _ ha', hc'⟩

theorem sendSlice_eq {x x' : Sender} {i : Fin 8} (h : sendSlice x i = some x') :
    ∃ ds, (∀ d ∈ ds, IsData x i d) ∧ x' = x.send ds := by
  obtain ⟨ds, hds, rfl⟩ := Option.map_eq_some_iff.mp h
  refine ⟨ds, fun d hd => ?_, rfl⟩
  obtain ⟨k, hk, hdata⟩ := mem_of_mapM_some hds d hd
  exact ⟨k, List.mem_range.mp hk, hdata⟩

theorem sendFecBlocks_eq {x x' : Sender} {i : Fin 8} (h : sendFecBlocks x i = some x') :
    ∃ ds, (∀ d ∈ ds, IsFec x i d) ∧ x' = x.send ds := by
  obtain ⟨ds, hds, rfl⟩ := Option.map_eq_some_iff.mp h
  refine ⟨ds, fun d hd => ?_, rfl⟩
  obtain ⟨k, hk, hdata⟩ := mem_of_mapM_some hds d hd
  exact ⟨k, List.mem_range.mp hk, hdata⟩

theorem sendBlocks_eq {x x' : Sender} {i : Fin 8} (h : sendBlocks x i = some x') :
    ∃ ds, (∀ d ∈ ds, IsData x i d ∨
      x.config.hasFlag flagFec = true ∧ 0 < (x.slices i).bytes ∧ IsFec x i d) ∧ x' = x.send ds := by
  obtain ⟨x₁, hx₁, h⟩ := Option.bind_eq_some_iff.mp h
  obtain ⟨ds₁, hds₁, rfl⟩ := sendSlice_eq hx₁
  split at h
  · rename_i hflag
    obtain ⟨ds₂, hds₂, rfl⟩ := sendFecBlocks_eq h
    refine ⟨ds₁ ++ ds₂, fun d hd => ?_, ?_⟩
    · rcases List.mem_append.mp hd with hd | hd
      · exact Or.inl (hds₁ d hd)
      · exact Or.inr ⟨hflag.1, hflag.2, hds₂ d hd⟩
    · simp only [Sender.send, List.append_assoc]
  · obtain rfl := Option.some.inj h
    exact ⟨ds₁, fun d hd => Or.inl (hds₁ d hd), rfl⟩

/-- A slot as a retransmission leaves it. -/
def Slice.rexmitted (s : Slice) (map : Bitmap) (good : ℕ) : Slice :=
  { s with isXmittedMap := map, lastGoodBlock := good, needRxmit := false }

/-- Two copies of the packet of every block in a list. -/
def twice {α : Type*} (packet : ℕ → α) (blocks : List ℕ) : List α :=
  blocks.flatMap fun k => [packet k, packet k]

/-- The blocks that are asked for and have not been sent in the round. -/
def Slice.wanted (s : Slice) (k : ℕ) : Bool := s.rxmitMap.getLsbD k && !s.isXmittedMap.getLsbD k

/-- What a retransmission of the blocks in a list does: `ds` are two copies of the wanted blocks,
and `map` has the bits of what has been sent. -/
structure Resent (x : Sender) (s : Slice) (blocks : List ℕ) (map : Bitmap) (ds : List Datagram) :
    Prop where
  map : ∀ j, map.getLsbD j = (s.isXmittedMap.getLsbD j || (decide (j ∈ blocks) && s.wanted j))
  packets : ∃ packet, ds = twice packet (blocks.filter s.wanted) ∧
    ∀ k ∈ blocks.filter s.wanted, dataPacket x s k = some (packet k)

theorem Resent.packet {x : Sender} {i : Fin 8} {map : Bitmap} {ds : List Datagram}
    (h : Resent x (x.slices i) (List.range (x.config.nrBlocks (x.slices i).bytes)) map ds) :
    ∀ d ∈ ds, IsData x i d := by
  obtain ⟨packet, rfl, hpacket⟩ := h.packets
  intro d hd
  obtain ⟨k, hk, hd⟩ := List.mem_flatMap.mp hd
  simp only [List.mem_cons, List.not_mem_nil, or_false, or_self] at hd
  exact ⟨k, List.mem_range.mp (List.mem_of_mem_filter hk), hd ▸ hpacket k hk⟩

theorem rexmitBlock_eq {x : Sender} {s : Slice} {ds : List Datagram} {k : ℕ}
    {acc : Slice × List Datagram} (h : rexmitBlock x (s, ds) k = some acc) :
    (s.wanted k = false ∧ ∃ good, acc = ({ s with lastGoodBlock := good }, ds)) ∨
      (s.wanted k = true ∧ k < 1024 ∧ ∃ packet, dataPacket x s k = some packet ∧
        acc = ({ s with isXmittedMap := Bitmap.insert s.isXmittedMap k }, ds ++ [packet, packet])) := by
  simp only [rexmitBlock, Option.bind_eq_bind] at h
  obtain ⟨b₁, h₁, h⟩ := Option.bind_eq_some_iff.mp h
  obtain ⟨b₂, h₂, h⟩ := Option.bind_eq_some_iff.mp h
  obtain ⟨hk, rfl⟩ := Bitmap.bitIsSet_eq_some.mp h₁
  obtain ⟨-, rfl⟩ := Bitmap.bitIsSet_eq_some.mp h₂
  split at h
  · rename_i hskip
    obtain rfl := Option.some.inj h
    refine Or.inl ⟨?_, if k > s.lastGoodBlock then k else s.lastGoodBlock, ?_⟩
    · rw [Slice.wanted]
      cases hr : s.rxmitMap.getLsbD k with
      | false => rfl
      | true =>
        rw [hr] at hskip
        rw [Bool.true_and, Bool.not_eq_false']
        simpa using hskip
    · split
      · rfl
      · rfl
  · rename_i hsend
    obtain ⟨map, hmap, h⟩ := Option.bind_eq_some_iff.mp h
    obtain ⟨packet, hpacket, h⟩ := Option.bind_eq_some_iff.mp h
    obtain rfl := Option.some.inj h
    rw [Bitmap.setBit_eq hk] at hmap
    obtain rfl := Option.some.inj hmap
    refine Or.inr ⟨?_, hk, packet, hpacket, rfl⟩
    rw [Slice.wanted]
    simpa using hsend

/-- The loop of `rexmit_slice`; a later block is wanted as it was before. -/
theorem rexmitBlocks_eq {x : Sender} {blocks : List ℕ} (hnodup : blocks.Nodup) {s : Slice}
    {ds : List Datagram} {acc : Slice × List Datagram}
    (h : blocks.foldlM (rexmitBlock x) (s, ds) = some acc) :
    ∃ map good ds', acc = ({ s with isXmittedMap := map, lastGoodBlock := good }, ds ++ ds') ∧
      Resent x s blocks map ds' := by
  induction blocks generalizing s ds with
  | nil =>
    rw [List.foldlM_nil] at h
    obtain rfl := Option.some.inj h
    exact ⟨s.isXmittedMap, s.lastGoodBlock, [], by rw [List.append_nil], fun j => by simp,
      fun _ => .skipped, rfl, nofun⟩
  | cons k blocks ih =>
    obtain ⟨hk, hnodup⟩ := List.nodup_cons.mp hnodup
    rw [List.foldlM_cons] at h
    obtain ⟨acc₁, h₁, h⟩ := Option.bind_eq_some_iff.mp h
    rcases rexmitBlock_eq h₁ with ⟨hwanted, good₁, rfl⟩ | ⟨hwanted, hlt, packet, hpacket, rfl⟩
    · obtain ⟨map, good, ds', rfl, hmap, p, hds, hp⟩ := ih hnodup h
      have hfilter : (k :: blocks).filter s.wanted = blocks.filter s.wanted := by
        rw [List.filter_cons_of_neg (by rw [hwanted]; exact Bool.false_ne_true)]
      refine ⟨map, good, ds', rfl, fun j => ?_, p, by rw [hfilter]; exact hds, ?_⟩
      · rw [hmap j]
        show (s.isXmittedMap.getLsbD j || (decide (j ∈ blocks) && s.wanted j)) = _
        by_cases hj : j = k
        · rw [hj, hwanted, Bool.and_false, Bool.and_false]
        · simp only [List.mem_cons, hj, false_or]
      · rw [hfilter]
        exact hp
    · obtain ⟨map, good, ds', rfl, hmap, p, hds, hp⟩ := ih hnodup h
      -- the bit that is set now is not one of a later block
      have hlater : ∀ j ≠ k,
          ({ s with isXmittedMap := Bitmap.insert s.isXmittedMap k } : Slice).wanted j = s.wanted j := by
        intro j hj
        rw [Slice.wanted, Slice.wanted, Bitmap.getLsbD_insert hlt, decide_eq_false hj, Bool.or_false]
      have hsame : blocks.filter
          ({ s with isXmittedMap := Bitmap.insert s.isXmittedMap k } : Slice).wanted
            = blocks.filter s.wanted :=
        List.filter_congr fun j hj => hlater j (ne_of_mem_of_not_mem hj hk)
      rw [hsame] at hds hp
      have hfilter : (k :: blocks).filter s.wanted = k :: blocks.filter s.wanted :=
        List.filter_cons_of_pos hwanted
      have hother : ∀ j ∈ blocks.filter s.wanted, Function.update p k packet j = p j :=
        fun j hj =>
        Function.update_of_ne (ne_of_mem_of_not_mem (List.mem_of_mem_filter hj) hk) _ _
      refine ⟨map, good, [packet, packet] ++ ds', by rw [List.append_assoc], fun j => ?_,
        Function.update p k packet, ?_, ?_⟩
      · rw [hmap j]
        show ((Bitmap.insert s.isXmittedMap k).getLsbD j || _) = _
        rw [Bitmap.getLsbD_insert hlt]
        by_cases hj : j = k
        · simp [hj, hk, hwanted]
        · simp [hj, hlater j hj]
      · rw [hfilter, twice, List.flatMap_cons, Function.update_self, hds, twice]
        congr 1
        exact (List.flatMap_congr fun j hj => by rw [hother j hj]).symm
      · rw [hfilter]
        intro j hj
        rcases List.mem_cons.mp hj with rfl | hj
        · rw [Function.update_self]
          exact hpacket
        · rw [hother j hj]
          exact hp j hj

theorem rexmitSlice_eq {x x' : Sender} {i : Fin 8} (h : rexmitSlice x i = some x') :
    ∃ map good ds, Resent x (x.slices i)
        (List.range (x.config.nrBlocks (x.slices i).bytes)) map ds ∧
      x' = (x.modify i fun s => s.rexmitted map good).send ds := by
  obtain ⟨acc, hfold, h⟩ := Option.bind_eq_some_iff.mp h
  obtain rfl := Option.some.inj h
  obtain ⟨map, good, ds, rfl, hresent⟩ := rexmitBlocks_eq List.nodup_range hfold
  exact ⟨map, good, ds, hresent, rfl⟩

/-- The REQACK of slot `i` is sent. -/
def requested (x : Sender) (i : Fin 8) : Sender :=
  ({ x with config := reduceSliceSize x.config (x.slices i) }.modify i Slice.nextRound).send
    [reqackOf (x.slices i)]

/-- The slot `i` in a new round. -/
def bumped (x : Sender) (i : Fin 8) (rxmitId : ℤ) : Sender :=
  x.modify i fun s => { s with rxmitId := rxmitId }

theorem nextRound_eq {x x' : Sender} {i : Fin 8}
    (hbytes : x.config.hasFlag flagAsync = true → (x.slices i).bytes = 0)
    (h : nextRound x i = some x') : ∃ rxmitId, x' = requested (bumped x i rxmitId) i := by
  obtain ⟨rxmitId, -, h⟩ := Option.bind_eq_some_iff.mp h
  refine ⟨rxmitId, ?_⟩
  rw [sendReqack, if_neg] at h
  · exact (Option.some.inj h).symm
  · rintro ⟨hasync, hne⟩
    rw [modify_slices_self] at hne
    exact hne (hbytes hasync)

@[simp] theorem bumped_slices_self (x : Sender) (i : Fin 8) (n : ℤ) :
    (bumped x i n).slices i = { x.slices i with rxmitId := n } := modify_slices_self ..

theorem bumped_slices_of_ne (x : Sender) {i j : Fin 8} (n : ℤ) (h : j ≠ i) :
    (bumped x i n).slices j = x.slices j := modify_slices_of_ne x i _ h

@[simp] theorem requested_slices_self (x : Sender) (i : Fin 8) :
    (requested x i).slices i = (x.slices i).nextRound := modify_slices_self ..

theorem requested_slices_of_ne (x : Sender) {i j : Fin 8} (h : j ≠ i) :
    (requested x i).slices j = x.slices j := by
  rw [requested, send_slices, modify_slices_of_ne _ _ _ h]

/-! ### A new slice -/

/-- The slot of a new slice. -/
def Slice.formed (s : Slice) (base : ℕ) (sliceNo : ℤ) (bytes : ℕ) : Slice :=
  { Slice.new s.fecData with base := base, sliceNo := sliceNo, bytes := bytes, state := .new }

/-- A new slice of `bytes` bytes in slot `pos`. -/
def formed (x : Sender) (pos : Fin 8) (bytes : ℕ) (data : Produconsum) : Sender :=
  ({ x with
      fifo.data := data
      sliceNo := x.sliceNo + 1
      atEnd := decide (bytes = 0)
      cuts := x.cuts ++ [bytes]
      phase := if x.config.hasFlag flagFec ∧ bytes > 0 then .encoding pos else .sending pos }.modify pos
    fun s => s.formed x.fifo.data.getConsumerPosition x.sliceNo bytes).emit (.formed x.sliceNo)

/-- The size of a new slice when `m` bytes are waiting. -/
structure CutFrom (c : NetConfig) (m bytes : ℕ) : Prop where
  le : bytes ≤ m
  le_slice : bytes ≤ c.blockSize * c.sliceSize
  blocks : c.blockSize ∣ bytes ∨ bytes < c.blockSize
  /-- All of the input that is left, unless the slice is of whole blocks. -/
  rest : bytes < c.blockSize → 0 < c.sliceSize → bytes = m

theorem cutBytes_cutFrom {c : NetConfig} {m bytes : ℕ} (h : cutBytes c m = some bytes) :
    CutFrom c m bytes := by
  obtain ⟨limit, hlimit, h⟩ := Option.bind_eq_some_iff.mp h
  have hl : limit = c.blockSize * c.sliceSize := by
    rw [checkU32] at hlimit
    split at hlimit
    · exact (Option.some.inj hlimit).symm
    · cases hlimit
  obtain rfl := Option.some.inj h
  generalize hcut : (if m > limit then limit else m) = n
  have hn : n ≤ m ∧ n ≤ limit ∧ (n = m ∨ n = limit) := by
    rw [← hcut]
    split
    · exact ⟨by omega, le_rfl, Or.inr rfl⟩
    · exact ⟨le_rfl, by omega, Or.inl rfl⟩
  have hmod : n % c.blockSize ≤ n := Nat.mod_le _ _
  by_cases hbig : n > c.blockSize
  · rw [if_pos hbig]
    have hlt := Nat.mod_lt n c.blockSize_pos
    have hdvd : c.blockSize ∣ n - n % c.blockSize := Nat.dvd_sub_mod n
    refine ⟨by omega, by omega, Or.inl hdvd, fun hsmall => ?_⟩
    have hpos : 0 < n - n % c.blockSize := by omega
    have := Nat.le_of_dvd hpos hdvd
    omega
  · rw [if_neg hbig]
    refine ⟨hn.1, by omega, ?_, fun hsmall hpos => ?_⟩
    · rcases Nat.lt_or_ge n c.blockSize with hlt | hge
      · exact Or.inr hlt
      · have heq : n = c.blockSize := by omega
        exact Or.inl (heq ▸ dvd_rfl)
    · rcases hn.2.2 with heq | heq
      · exact heq
      · have := Nat.le_mul_of_pos_right c.blockSize hpos
        omega

theorem findFreeSlice_some {x : Sender} {i : Fin 8} (h : findFreeSlice x = some i) :
    (x.slices i).state = .free := by
  simpa using List.find?_some h

theorem findSlice_some {x : Sender} {s : ℤ} {i : Fin 8} (h : findSlice x s = some i) :
    (x.slices i).state ≠ .free ∧ (x.slices i).sliceNo = s := by
  simpa using List.find?_some h

theorem findSlice_none {x : Sender} {s : ℤ} (h : findSlice x s = none) (j : Fin 8)
    (hj : (x.slices j).state ≠ .free) : (x.slices j).sliceNo ≠ s := fun hs => by
  have := List.find?_eq_none.mp h j (List.mem_finRange j)
  simp [hs, hj] at this

/-! ### All steps -/

/-- The steps of the main loop that change its own position only. -/
inductive Goto (x : Sender) : Action → Phase → Prop
  | top : x.phase = .top → x.msgs = [] →
      Goto x .advance (.acking x.pending x.db.nrParticipants false)
  | notReady {i : Fin 8} {rest : List (Fin 8)} {nr : ℕ} {fr : Bool} :
      x.phase = .acking (i :: rest) nr fr → Goto x .advance (.acking rest nr fr)
  | acked {nr : ℕ} : x.phase = .acking [] nr false → Goto x .advance (.rexmitting x.pending false)
  | complete {i : Fin 8} {rest : List (Fin 8)} {fl : Bool} :
      x.phase = .rexmitting (i :: rest) fl → (x.slices i).needRxmit = false →
      Goto x .advance (.rexmitting rest fl)
  | rexmitted : x.phase = .rexmitting [] true → Goto x .advance .top
  | rexmittedNone : x.phase = .rexmitting [] false →
      Goto x .advance (.reqacking x.pending x.db.nrParticipants false)
  | notAnswered {i : Fin 8} {rest : List (Fin 8)} {nr : ℕ} {fr : Bool} :
      x.phase = .reqacking (i :: rest) nr fr →
      ¬ ((x.slices i).state ≠ .acked ∧ (x.slices i).nrAnswered ≥ nr) →
      Goto x .advance (.reqacking rest nr fr)
  | reqacked {nr : ℕ} : x.phase = .reqacking [] nr false → Goto x .advance .forming
  | noSlot : x.phase = .forming → Goto x .advance .top
  | wait : x.phase = .forming → Goto x .advance .waiting
  | woken {a : Action} : x.phase = .waiting → a = .wake ∨ a = .timeout ∧ x.pending = [] →
      Goto x a .top

/-- The table of the participants after the drops of a timeout. -/
def afterDrop (x : Sender) (i : Fin 8) : ParticipantsDb :=
  if (x.slices i).rxmitId > x.config.retriesUntilDrop then
    (toDrop x i).foldl ParticipantsDb.removeParticipant x.db
  else x.db

/-- The slot `i` has been sent, and its blocks and parity blocks are `ds`. -/
def transmitted (x : Sender) (i : Fin 8) (ds : List Datagram) : Sender :=
  (x.send ds).modify i fun s => { s with state := .xmitted }

theorem transmitted_slices_self (x : Sender) (i : Fin 8) (ds : List Datagram) :
    (transmitted x i ds).slices i = { x.slices i with state := .xmitted } := modify_slices_self ..

theorem transmitted_slices_of_ne (x : Sender) {i j : Fin 8} (ds : List Datagram) (h : j ≠ i) :
    (transmitted x i ds).slices j = x.slices j := by
  rw [transmitted, modify_slices_of_ne _ _ _ h, send_slices]

theorem reqackOf_transmitted (x : Sender) (i : Fin 8) (ds : List Datagram) :
    reqackOf ((transmitted x i ds).slices i) = reqackOf (x.slices i) := by
  rw [transmitted_slices_self]
  rfl

/-- A step that needs a pending data slice in asynchronous mode, where there is none. -/
def AsyncRound (x : Sender) : Prop :=
  x.config.hasFlag flagAsync = true ∧ ∃ i, (x.slices i).bytes ≠ 0 ∧
    ((∃ rest nr fr, x.phase = .reqacking (i :: rest) nr fr) ∨ x.phase = .waiting ∧ i ∈ x.pending)

/-- The steps, with what they change. -/
inductive StepTo (x : Sender) : Action → Sender → Prop
  | arrive {m : IncomingMsg} : x.held = none → x.db.isParticipantValid m.clNo = true →
      StepTo x (.arrive m) { x with held := some m }
  | enqueue {m : IncomingMsg} : x.held = some m →
      StepTo x .enqueue { x with held := none, msgs := x.msgs ++ [m] }
  | dispatch {m : IncomingMsg} {rest : List IncomingMsg} : x.phase = .top → x.msgs = m :: rest →
      StepTo x .dispatch (handleMessage { x with msgs := rest } m)
  | goto {a : Action} {p : Phase} : Goto x a p → StepTo x a { x with phase := p }
  | retain {nr : ℕ} : x.phase = .acking [] nr true ∨ x.phase = .reqacking [] nr true →
      StepTo x .advance { retainPending x with phase := .top }
  | acked {i : Fin 8} {rest : List (Fin 8)} {nr : ℕ} {fr : Bool} {config : NetConfig}
      {q : Produconsum} : x.phase = .acking (i :: rest) nr fr → nr ≤ (x.slices i).nrReady →
      growSliceSize x.config = some config →
      x.fifo.freeMemQueue.produce (x.slices i).bytes = some q →
      StepTo x .advance { released x i config q with phase := .acking rest nr true }
  | rexmit {i : Fin 8} {rest : List (Fin 8)} {fl : Bool} {map : Bitmap} {good : ℕ}
      {ds : List Datagram} : x.phase = .rexmitting (i :: rest) fl →
      Resent x (x.slices i) (List.range (x.config.nrBlocks (x.slices i).bytes)) map ds →
      StepTo x .advance
        { (x.modify i fun s => s.rexmitted map good).send ds with phase := .rexmitting rest true }
  | reqack {i : Fin 8} {rest : List (Fin 8)} {nr : ℕ} {fr : Bool} {rxmitId : ℤ} :
      x.phase = .reqacking (i :: rest) nr fr →
      (x.slices i).state ≠ .acked ∧ (x.slices i).nrAnswered ≥ nr →
      StepTo x .advance
        { requested (bumped x i rxmitId) i with phase := .reqacking rest nr fr }
  | asyncRound {a : Action} {x' : Sender} : AsyncRound x → StepTo x a x'
  | form {pos : Fin 8} {bytes m : ℕ} {data : Produconsum} : x.phase = .forming →
      x.pending.length < x.config.maxInFlight → x.atEnd = false → (x.slices pos).state = .free →
      x.fifo.data.consume (10 * x.config.blockSize) = some m → CutFrom x.config m bytes →
      x.fifo.data.consumed bytes = some data → StepTo x .advance (formed x pos bytes data)
  | finish : x.phase = .forming → StepTo x .advance (finish x)
  | encode {i : Fin 8} {fecData : List (List UInt8)} : x.phase = .encoding i →
      (List.range x.config.fecStripes).foldlM (encodeStripe x (x.slices i)) (x.slices i).fecData
        = some fecData →
      StepTo x .advance
        { x.modify i fun s => { s with fecData := fecData } with phase := .sending i }
  | transmit {i : Fin 8} {ds : List Datagram} : x.phase = .sending i →
      (∀ d ∈ ds, IsData x i d ∨ x.config.hasFlag flagFec = true ∧ 0 < (x.slices i).bytes ∧ IsFec x i d) →
      (x.config.hasFlag flagAsync = true → (x.slices i).bytes = 0) →
      StepTo x .advance { requested (transmitted x i ds) i with
        pending := x.pending ++ [i], phase := .top }
  | transmitAsync {i : Fin 8} {ds : List Datagram} {config : NetConfig} {q : Produconsum} :
      x.phase = .sending i →
      (∀ d ∈ ds, IsData x i d ∨ x.config.hasFlag flagFec = true ∧ 0 < (x.slices i).bytes ∧ IsFec x i d) →
      growSliceSize x.config = some config →
      x.fifo.freeMemQueue.produce (x.slices i).bytes = some q →
      x.config.hasFlag flagAsync = true →
      StepTo x .advance { released (x.send ds) i config q with phase := .top }
  | timeout {i : Fin 8} {rest : List (Fin 8)} {rxmitId : ℤ} : x.phase = .waiting →
      x.pending = i :: rest →
      StepTo x .timeout
        { requested (bumped { x with db := afterDrop x i } i rxmitId) i with phase := .top }
  | allDropped {i : Fin 8} {rest : List (Fin 8)} : x.phase = .waiting → x.pending = i :: rest →
      StepTo x .timeout (SendData.finish { x with db := afterDrop x i })
  | readerWait {x' : Sender} : x.reader = .waiting → readerWait x = some x' →
      StepTo x .readerWait x'
  | readEnd {pos n : ℕ} : x.reader = .reading pos n →
      StepTo x (.read []) { x with fifo.data := x.fifo.data.produceEnd, reader := .returned }
  | read {pos n : ℕ} {buf : List UInt8} : x.reader = .reading pos n → buf.length ≤ n →
      StepTo x (.read buf) { x with input := x.input ++ buf, reader := .got pos buf }
  | readerConsumed {pos : ℕ} {buf : List UInt8} {q : Produconsum} : x.reader = .got pos buf →
      x.fifo.freeMemQueue.consumed buf.length = some q →
      StepTo x .readerConsumed { x with fifo.freeMemQueue := q, reader := .consumed pos buf }
  | readerWrite {pos : ℕ} {buf : List UInt8} {fifo : Fifo} : x.reader = .consumed pos buf →
      x.fifo.writeAt pos buf = some fifo →
      StepTo x .readerWrite { x with fifo := fifo, reader := .written buf.length }
  | readerProduced {n : ℕ} {q : Produconsum} : x.reader = .written n →
      x.fifo.data.produce n = some q →
      StepTo x .readerProduced { x with fifo.data := q, reader := .waiting }

theorem ackPending_cases {x x' : Sender} {i : Fin 8} {rest : List (Fin 8)} {nr : ℕ} {fr : Bool}
    (hphase : x.phase = .acking (i :: rest) nr fr) (h : ackPending x i rest nr fr = some x') :
    StepTo x .advance x' := by
  rw [ackPending] at h
  split at h
  · rename_i hready
    obtain ⟨x₁, hack, rfl⟩ := Option.map_eq_some_iff.mp h
    obtain ⟨-, config, q, hconfig, hq, hfree⟩ := freeSlice_ackSlice hready.1 hack
    rw [hfree]
    exact StepTo.acked hphase hready.2 hconfig hq
  · obtain rfl := Option.some.inj h
    exact StepTo.goto (Goto.notReady hphase)

theorem rexmitPending_cases {x x' : Sender} {i : Fin 8} {rest : List (Fin 8)} {fl : Bool}
    (hphase : x.phase = .rexmitting (i :: rest) fl) (h : rexmitPending x i rest fl = some x') :
    StepTo x .advance x' := by
  rw [rexmitPending] at h
  split at h
  · obtain ⟨x₁, hx₁, rfl⟩ := Option.map_eq_some_iff.mp h
    obtain ⟨map, good, ds, hds, rfl⟩ := rexmitSlice_eq hx₁
    exact StepTo.rexmit hphase hds
  · rename_i hcomplete
    obtain rfl := Option.some.inj h
    exact StepTo.goto (Goto.complete hphase (Bool.eq_false_iff.mpr hcomplete))

theorem reqackPending_cases {x x' : Sender} {i : Fin 8} {rest : List (Fin 8)} {nr : ℕ} {fr : Bool}
    (hphase : x.phase = .reqacking (i :: rest) nr fr) (h : reqackPending x i rest nr fr = some x') :
    StepTo x .advance x' := by
  rw [reqackPending] at h
  split at h
  · rename_i hanswered
    obtain ⟨x₁, hx₁, rfl⟩ := Option.map_eq_some_iff.mp h
    by_cases hasync : x.config.hasFlag flagAsync = true ∧ (x.slices i).bytes ≠ 0
    · exact StepTo.asyncRound ⟨hasync.1, i, hasync.2, Or.inl ⟨rest, nr, fr, hphase⟩⟩
    · obtain ⟨rxmitId, rfl⟩ := nextRound_eq (fun ha => by
        by_contra hne
        exact hasync ⟨ha, hne⟩) hx₁
      have hstate : ((requested (bumped x i rxmitId) i).slices i).state ≠ .acked := by
        rw [requested_slices_self, bumped_slices_self]
        exact hanswered.1
      rw [freeAcked, if_neg hstate, decide_eq_false hstate, Bool.or_false]
      exact StepTo.reqack hphase hanswered
  · rename_i hanswered
    obtain rfl := Option.some.inj h
    exact StepTo.goto (Goto.notAnswered hphase hanswered)

theorem formOrWait_cases {x x' : Sender} (hphase : x.phase = .forming)
    (h : formOrWait x = some x') : StepTo x .advance x' := by
  rw [formOrWait] at h
  split at h
  · rename_i hroom
    cases hfree : findFreeSlice x with
    | none =>
      rw [hfree] at h
      obtain rfl := Option.some.inj h
      exact StepTo.goto (Goto.noSlot hphase)
    | some pos =>
      rw [hfree] at h
      simp only [formSlice, Option.bind_eq_bind, Option.bind_eq_some_iff] at h
      obtain ⟨sliceNo, hno, m, hm, bytes, hbytes, data, hdata, h⟩ := h
      obtain rfl := Option.some.inj h
      rw [checkI32] at hno
      split at hno
      · obtain rfl := Option.some.inj hno
        exact StepTo.form hphase hroom.1 hroom.2 (findFreeSlice_some hfree) hm
          (cutBytes_cutFrom hbytes) hdata
      · cases hno
  · split at h
    · obtain rfl := Option.some.inj h
      exact StepTo.finish hphase
    · split at h
      · obtain rfl := Option.some.inj h
        exact StepTo.finish hphase
      · obtain rfl := Option.some.inj h
        exact StepTo.goto (Goto.wait hphase)

theorem transmit_eq {x : Sender} {i : Fin 8} {ds : List Datagram}
    (hsend : sendBlocks x i = some (x.send ds))
    (hbytes : ¬(x.config.hasFlag flagAsync = true ∧ (x.slices i).bytes ≠ 0)) :
    transmit x i = some { requested (transmitted x i ds) i with
      pending := x.pending ++ [i], phase := .top } := by
  have hreq : sendReqack (transmitted x i ds) i = some (requested (transmitted x i ds) i) := by
    rw [sendReqack, if_neg]
    · rfl
    · rw [transmitted_slices_self]
      exact hbytes
  have hstate : ((requested (transmitted x i ds) i).slices i).state ≠ .acked := by
    rw [requested_slices_self, transmitted_slices_self]
    simp [Slice.nextRound]
  have hsent : (x.send ds).modify i (fun s => { s with state := .xmitted }) = transmitted x i ds := rfl
  rw [transmit, hsend]
  simp only [Option.bind_eq_bind, Option.bind_some]
  rw [hsent, hreq, Option.bind_some, if_neg hstate]
  rfl

theorem sendBlocks_end {x : Sender} {i : Fin 8} (h : (x.slices i).bytes = 0) :
    sendBlocks x i = some (x.send []) := by
  have hnone : x.config.nrBlocks (x.slices i).bytes = 0 := by
    have hpos := x.config.blockSize_pos
    rw [h, NetConfig.nrBlocks, Nat.zero_add]
    exact Nat.div_eq_of_lt (by omega)
  have hslice : sendSlice x i = some (x.send []) := by
    rw [sendSlice, hnone]
    rfl
  rw [sendBlocks, hslice]
  exact if_neg fun hpos => hpos.2.ne' h

theorem transmit_cases {x x' : Sender} {i : Fin 8} (hphase : x.phase = .sending i)
    (h : transmit x i = some x') : StepTo x .advance x' := by
  obtain ⟨x₂, hx₂, hrest⟩ := Option.bind_eq_some_iff.mp h
  obtain ⟨ds, hds, rfl⟩ := sendBlocks_eq hx₂
  by_cases hasync : x.config.hasFlag flagAsync = true ∧ (x.slices i).bytes ≠ 0
  · obtain ⟨x₃, hx₃, hrest⟩ := Option.bind_eq_some_iff.mp hrest
    have hack : ackSlice (transmitted x i ds) i = some x₃ := by
      rw [← hx₃, sendReqack, if_pos]
      · rfl
      · show _ ∧ ((transmitted x i ds).slices i).bytes ≠ 0
        rw [transmitted_slices_self]
        exact hasync
    obtain ⟨hacked, config, q, hconfig, hq, hfree⟩ :=
      freeSlice_ackSlice (by simp [transmitted_slices_self]) hack
    rw [transmitted_slices_self] at hq
    rw [if_pos hacked, hfree] at hrest
    obtain rfl := Option.some.inj hrest
    have hsame : released (transmitted x i ds) i config q = released (x.send ds) i config q := by
      simp only [released, transmitted, Sender.modify, Sender.emit, Sender.send,
        Function.update_self, Function.update_idem]
    rw [hsame]
    exact StepTo.transmitAsync hphase hds hconfig hq hasync.1
  · rw [transmit_eq hx₂ hasync] at h
    obtain rfl := Option.some.inj h
    exact StepTo.transmit hphase hds fun ha => by
      by_contra hne
      exact hasync ⟨ha, hne⟩

theorem advance_cases {x x' : Sender} (h : advance x = some x') : StepTo x .advance x' := by
  rw [advance] at h
  split at h
  · rename_i hphase
    split at h
    · rename_i hmsgs
      obtain rfl := Option.some.inj h
      exact StepTo.goto (Goto.top hphase hmsgs)
    · cases h
  · rename_i hphase
    exact ackPending_cases hphase h
  · rename_i fr hphase
    obtain rfl := Option.some.inj h
    cases fr with
    | true => exact StepTo.retain (Or.inl hphase)
    | false => exact StepTo.goto (Goto.acked hphase)
  · rename_i hphase
    exact rexmitPending_cases hphase h
  · rename_i fl hphase
    obtain rfl := Option.some.inj h
    cases fl with
    | true => exact StepTo.goto (Goto.rexmitted hphase)
    | false => exact StepTo.goto (Goto.rexmittedNone hphase)
  · rename_i hphase
    exact reqackPending_cases hphase h
  · rename_i fr hphase
    obtain rfl := Option.some.inj h
    cases fr with
    | true => exact StepTo.retain (Or.inr hphase)
    | false => exact StepTo.goto (Goto.reqacked hphase)
  · rename_i hphase
    exact formOrWait_cases hphase h
  · rename_i hphase
    obtain ⟨x₁, hx₁, rfl⟩ := Option.map_eq_some_iff.mp h
    obtain ⟨fecData, hfec, h⟩ := Option.bind_eq_some_iff.mp hx₁
    obtain rfl := Option.some.inj h
    exact StepTo.encode hphase hfec
  · rename_i hphase
    exact transmit_cases hphase h
  · cases h
  · cases h

theorem timeOut_cases {x x' : Sender} (hphase : x.phase = .waiting) (h : timeOut x = some x') :
    StepTo x .timeout x' := by
  rw [timeOut] at h
  split at h
  · rename_i hpending
    obtain rfl := Option.some.inj h
    exact StepTo.goto (Goto.woken hphase (Or.inr ⟨rfl, hpending⟩))
  · rename_i i rest hpending
    have hround : ∀ x₁ : Option Sender, x₁ = nextRound { x with db := afterDrop x i } i →
        x₁.map (fun x => { x with phase := .top }) = some x' → StepTo x .timeout x' := by
      rintro _ rfl h
      obtain ⟨x₁, hx₁, rfl⟩ := Option.map_eq_some_iff.mp h
      by_cases hasync : x.config.hasFlag flagAsync = true ∧ (x.slices i).bytes ≠ 0
      · exact StepTo.asyncRound ⟨hasync.1, i, hasync.2,
          Or.inr ⟨hphase, by rw [hpending]; exact List.mem_cons_self⟩⟩
      · obtain ⟨rxmitId, rfl⟩ := nextRound_eq (fun ha => by
          by_contra hne
          exact hasync ⟨ha, hne⟩) hx₁
        exact StepTo.timeout hphase hpending
    split at h
    · rename_i hlate
      have hdb : { x with db := afterDrop x i }
          = { x with db := (toDrop x i).foldl ParticipantsDb.removeParticipant x.db } := by
        rw [afterDrop, if_pos hlate]
      simp only at h
      split at h
      · obtain rfl := Option.some.inj h
        rw [← hdb]
        exact StepTo.allDropped hphase hpending
      · exact hround _ (by rw [hdb]) h
    · rename_i hearly
      have hdb : { x with db := afterDrop x i } = x := by rw [afterDrop, if_neg hearly]
      exact hround _ (by rw [hdb]) h

/-- Every step of the machine is one of the steps of `StepTo`. -/
theorem step_cases {x x' : Sender} {a : Action} (h : step x a = some x') : StepTo x a x' := by
  cases a with
  | arrive m =>
    simp only [step] at h
    split at h
    · rename_i hready
      obtain rfl := Option.some.inj h
      exact StepTo.arrive (Option.isNone_iff_eq_none.mp hready.1) hready.2
    · cases h
  | enqueue =>
    simp only [step] at h
    split at h
    · rename_i m hheld
      split at h
      · obtain rfl := Option.some.inj h
        exact StepTo.enqueue hheld
      · cases h
    · cases h
  | dispatch =>
    simp only [step] at h
    split at h
    · rename_i hphase hmsgs
      obtain rfl := Option.some.inj h
      exact StepTo.dispatch hphase hmsgs
    · cases h
  | advance => exact advance_cases h
  | wake =>
    simp only [step] at h
    split at h
    · rename_i hready
      obtain rfl := Option.some.inj h
      exact StepTo.goto (Goto.woken hready.1 (Or.inl rfl))
    · cases h
  | timeout =>
    simp only [step] at h
    split at h
    · rename_i hready
      exact timeOut_cases hready.1 h
    · cases h
  | readerWait =>
    simp only [step] at h
    split at h
    · rename_i hwait
      exact StepTo.readerWait hwait h
    · cases h
  | read buf =>
    simp only [step] at h
    split at h
    · rename_i hreader
      split at h
      · rename_i hlen
        obtain rfl := Option.some.inj h
        by_cases hbuf : buf = []
        · subst hbuf
          rw [if_pos rfl]
          exact StepTo.readEnd hreader
        · rw [if_neg hbuf]
          exact StepTo.read hreader hlen
      · cases h
    · cases h
  | readerConsumed =>
    simp only [step] at h
    split at h
    · rename_i hreader
      obtain ⟨q, hq, rfl⟩ := Option.map_eq_some_iff.mp h
      exact StepTo.readerConsumed hreader hq
    · cases h
  | readerWrite =>
    simp only [step] at h
    split at h
    · rename_i hreader
      obtain ⟨fifo, hfifo, rfl⟩ := Option.map_eq_some_iff.mp h
      exact StepTo.readerWrite hreader hfifo
    · cases h
  | readerProduced =>
    simp only [step] at h
    split at h
    · rename_i hreader
      obtain ⟨q, hq, rfl⟩ := Option.map_eq_some_iff.mp h
      exact StepTo.readerProduced hreader hq
    · cases h

end Udpcast.SendData
