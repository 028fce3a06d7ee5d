import Udpcast.Negotiate.Receiver
import Udpcast.Negotiate.Start

/-!
# The rendezvous of a sender and its receivers

There is one sender, and a receiver at every address that takes part.  The network loses, repeats and
reorders packets, and anything may arrive from elsewhere; but a DISCONNECT from an address has been
sent there, and so have the replies and HELLOs that come from the port of the sender.
-/

namespace Udpcast.Negotiate

open Bytes SendData ClientTable

/-- The configuration of the sender, and the options of the receiver at an address. -/
structure Site where
  config : StartConfig
  loopStart : ℕ
  controlAddr : SocketAddrV4
  flags : SocketAddrV4 → ℕ
  rcvbuf : SocketAddrV4 → BitVec 32
  startTimeout : SocketAddrV4 → ℤ
  started : SocketAddrV4 → ℕ

def Site.join (site : Site) (a : SocketAddrV4) : JoinConfig where
  address := a
  controlMcastAddr := site.controlAddr
  senderPort := site.config.address.port
  receiverPort := a.port
  rcvbuf := site.rcvbuf a
  startTimeout := site.startTimeout a

/-- The sender, the receivers, and all that has been sent. -/
structure System where
  sender : Sender
  receivers : SocketAddrV4 → Receiver
  network : List Packet

def System.start (site : Site) : System where
  sender := .negotiating .start
  receivers := fun a => .looking (Joining.start (site.flags a) (site.started a))
  network := [site.config.prepared.hello false]

/-- The replies that are sent again in the transfer, to participants that have not answered
(senddata.rs:473-496). -/
def lateReplies (c : StartConfig) (db : ClientTable) : List Packet :=
  (List.range maxClients).flatMap fun i =>
    match db.clientTable[i]? with
    | none => []
    | some client =>
      if client.used ∧ client.everAnswered = false ∧ client.capabilities &&& capLateJoin ≠ 0 then
        [c.reply client.addr i]
      else []

/-- What happens: a round of the negotiation; in the transfer the late replies, the end of a
participant or an answer; and at a receiver a turn of its loop, or the end of its transfer. -/
inductive Action
  | round (r : Round)
  | lateReplies
  | drop (i : ℕ)
  | answered (i : ℕ) (sliceNo : Option ℤ) (round : ℤ)
  | turn (a : SocketAddrV4) (t : Turn)
  | leave (a : SocketAddrV4) (exitStatus : ℤ)

def step (site : Site) (s : System) : Action → Option System
  | .round r => (round site.config.prepared site.loopStart s.sender r).map fun p =>
    { s with sender := p.1, network := s.network ++ p.2 }
  | .lateReplies =>
    match s.sender with
    | .transferring c db => some { s with network := s.network ++ lateReplies c db }
    | _ => none
  | .drop i =>
    match s.sender with
    | .transferring c db => some { s with sender := .transferring c (db.removeParticipant i) }
    | _ => none
  | .answered i sliceNo round =>
    match s.sender with
    | .transferring c db =>
      some { s with sender := .transferring c (db.markAnswered i sliceNo round) }
    | _ => none
  | .turn a t => (turn (site.join a) (s.receivers a) t).map fun p =>
    { s with receivers := Function.update s.receivers a p.1, network := s.network ++ p.2 }
  | .leave a exitStatus =>
    match s.receivers a with
    | .connected x | .listening x =>
      some
        { s with
          receivers := Function.update s.receivers a .left
          network := s.network ++ sendDisconnect (site.join a) x exitStatus }
    | _ => none

/-- A reply or a HELLO. -/
def invites (opcode : ℕ) : Prop := opcode = cmdConnectReply ∨ (helloOpcode opcode).isSome = true

/-- A DISCONNECT, a reply or a HELLO that arrives has been sent, a reply to this receiver alone. -/
def Delivers (site : Site) (s : System) : Action → Prop
  | .round r => ∀ m ∈ r.datagrams, m.1 ≠ site.config.controlMcastAddr ∧
    (opcodeOf (m.2.take 256) = cmdDisconnect →
      ∃ p ∈ s.network, p.source = m.1 ∧ p.message.opcode = cmdDisconnect)
  | .turn a t => ∀ d ∈ t.arrivals, d.source.port = site.config.address.port →
    invites (opcodeOf d.buf) → ∃ p ∈ s.network, p.source = d.source ∧
      (p.dest = a ∨ p.dest = site.config.controlMcastAddr) ∧ p.message.pack <+: d.buf
  | _ => True

/-! ### What is agreed -/

/-- Entry `i` has been given to the receiver at `a`, and is its entry still if the transfer has not
started. -/
def Holds : Sender → ℕ → SocketAddrV4 → Prop
  | .negotiating x, i, a => x.db.Occupies i a
  | .returned db, i, a => db.Occupies i a
  | .transferring _ db, i, a => ∃ client, db.clientTable[i]? = some client ∧ client.addr = a

/-- The group of the data, which a point-to-point transfer replaces by an address. -/
def Group (c : StartConfig) (s : Sender) (ip : BitVec 32) : Prop :=
  ip = c.dataMcastAddr.ip ∨ ∃ c' db, s = .transferring c' db ∧ ip = c'.dataMcastAddr.ip

/-- The transfer has been started with a participant that is not of the new generation. -/
def Older (s : Sender) : Prop := ∃ c db, s = .transferring c db ∧ c.capabilities &&& capNewGen = 0

/-- A receiver that is connected has the number of its entry, and the block size, the address and the
group of the sender, the group unless the transfer is one of the old generation. -/
structure Agreed (c : StartConfig) (s : Sender) (a : SocketAddrV4) (x : Joining) : Prop where
  number : ∃ i : ℕ, x.clientNumber = i ∧ Holds s i a
  blockSize : x.blockSize = c.blockSize
  serverAddr : x.serverAddr = c.address
  newgen : x.senderIsNewgen = true ∨ Older s
  group : x.senderIsNewgen = true → Group c s x.dataMcastAddr.ip

/-- What has been sent. -/
inductive Known (site : Site) (s : System) : Packet → Prop
  | hello (streaming : Bool) : Known site s (site.config.prepared.hello streaming)
  | reply (client : SocketAddrV4) (clNr : ℤ) (capabilities ip : BitVec 32) :
      client ≠ site.config.controlMcastAddr → Group site.config s.sender ip →
      (capabilities &&& capNewGen ≠ 0 ∨ Older s.sender) →
      (clNr = -1 ∨ ∃ i : ℕ, i < maxClients ∧ clNr = i ∧
        (s.receivers client = .left ∨ Holds s.sender i client)) →
      Known site s ⟨site.config.address, client,
        .connectReply ⟨clNr, asI32 site.config.blockSize, capabilities.toNat, ip4Into16 ip⟩⟩
  | request (a dest : SocketAddrV4) (m : ConnectReq) : Known site s ⟨a, dest, .connectReq m⟩
  | disconnect (a dest : SocketAddrV4) : s.receivers a = .left → Known site s ⟨a, dest, .disconnect⟩

/-- What holds between the actions. -/
structure Agrees (site : Site) (s : System) : Prop where
  registered : ∀ x, s.sender = .negotiating x → Registered site.config.prepared x.db
  length : s.sender.table.clientTable.length = maxClients
  apart : ∀ i a, s.sender.table.Occupies i a → a ≠ site.config.controlMcastAddr
  same : ∀ c db, s.sender = .transferring c db →
    c.blockSize = site.config.blockSize ∧ c.address = site.config.address
  known : ∀ p ∈ s.network, Known site s p
  looking : ∀ a x, s.receivers a = .looking x → x.senderIsNewgen = true →
    Group site.config s.sender x.dataMcastAddr.ip
  connected : ∀ a x, s.receivers a = .connected x → Agreed site.config s.sender a x
  listening : ∀ a x, s.receivers a = .listening x →
    x.dataMcastAddr.ip = site.config.dataMcastAddr.ip ∧
      (site.config.blockSize < 2 ^ 15 → x.blockSize = site.config.blockSize)

/-- What a step keeps of what has been agreed. -/
structure Later (site : Site) (s s' : System) : Prop where
  left : ∀ a, s.receivers a = .left → s'.receivers a = .left
  group : ∀ ip, Group site.config s.sender ip → Group site.config s'.sender ip
  older : Older s.sender → Older s'.sender
  holds : ∀ i a, Holds s.sender i a → s'.receivers a = .left ∨ Holds s'.sender i a

variable {site : Site} {s s' : System} {c : StartConfig} {db : ClientTable} {i : ℕ}
  {a : SocketAddrV4}

theorem Later.known (h : Later site s s') {p : Packet} (hp : Known site s p) : Known site s' p := by
  cases hp with
  | hello streaming => exact Known.hello streaming
  | reply client clNr capabilities ip hclient hip hnew hnr =>
    refine Known.reply client clNr capabilities ip hclient (h.group ip hip) (hnew.imp_right h.older) ?_
    rcases hnr with hnr | ⟨i, hi, hnr, hleft | hholds⟩
    · exact Or.inl hnr
    · exact Or.inr ⟨i, hi, hnr, Or.inl (h.left client hleft)⟩
    · exact Or.inr ⟨i, hi, hnr, h.holds i client hholds⟩
  | request a dest m => exact Known.request a dest m
  | disconnect a dest hleft => exact Known.disconnect a dest (h.left a hleft)

theorem Later.agreed (h : Later site s s') {x : Joining} (hx : s'.receivers a = .connected x)
    (hagreed : Agreed site.config s.sender a x) : Agreed site.config s'.sender a x := by
  obtain ⟨⟨i, hnr, hholds⟩, hblock, hserver, hnewgen, hgroup⟩ := hagreed
  refine ⟨⟨i, hnr, (h.holds i a hholds).resolve_left ?_⟩, hblock, hserver, hnewgen.imp_right h.older,
    fun hnew => h.group _ (hgroup hnew)⟩
  rw [hx]
  intro hleft
  cases hleft

theorem holds_of_occupies {s : Sender} (h : s.table.Occupies i a) : Holds s i a := by
  cases s with
  | negotiating x => exact h
  | returned db => exact h
  | transferring c db =>
    obtain ⟨client, hi, -, haddr⟩ := h
    exact ⟨client, hi, haddr⟩

theorem Holds.address {s : Sender} {b : SocketAddrV4} (h : Holds s i a) (hb : Holds s i b) :
    a = b := by
  have hentry : ∀ {addr}, Holds s i addr →
      ∃ client, s.table.clientTable[i]? = some client ∧ client.addr = addr := by
    intro addr haddr
    cases s with
    | negotiating x =>
      obtain ⟨client, hi, -, haddr⟩ := haddr
      exact ⟨client, hi, haddr⟩
    | returned db =>
      obtain ⟨client, hi, -, haddr⟩ := haddr
      exact ⟨client, hi, haddr⟩
    | transferring c db => exact haddr
  obtain ⟨client, hi, rfl⟩ := hentry h
  obtain ⟨other, hother, rfl⟩ := hentry hb
  rw [hi, Option.some_inj] at hother
  rw [hother]

/-! ### The sender -/

theorem doTransfer_frame {c' : StartConfig} (h : doTransfer c db = some c') :
    c'.toNetConfig = c.toNetConfig ∧ c'.address = c.address := by
  have hframe := (met_foldl (isPointToPoint c db) db c maxClients).frame
  rw [doTransfer] at h
  generalize (List.range maxClients).foldl (meet (isPointToPoint c db) db)
    { c with rcvbuf := 0 } = c₁ at h hframe
  have heq : c₁ = c' := by
    split at h
    · cases h
    · dsimp only at h
      split at h
      · cases h
      · exact Option.some.inj h
  rw [← heq, hframe]
  exact ⟨rfl, rfl⟩

theorem conclude_cases {x : Negotiation} {decision : Decision} {s : Sender}
    (h : conclude c x decision = some s) : s.table = x.db ∧
    (∀ x', s = .negotiating x' → x' = x) ∧
    ∀ c' db, s = .transferring c' db →
      c'.toNetConfig = c.toNetConfig ∧ c'.address = c.address := by
  cases decision with
  | wait =>
    obtain rfl := Option.some.inj h
    exact ⟨rfl, fun x' hx' => (Sender.negotiating.inj hx').symm, fun c' db hs => (by cases hs)⟩
  | giveUp =>
    obtain rfl := Option.some.inj h
    exact ⟨rfl, fun x' hx' => (by cases hx'), fun c' db hs => (by cases hs)⟩
  | start =>
    rw [conclude] at h
    split at h
    · obtain rfl := Option.some.inj h
      exact ⟨rfl, fun x' hx' => (by cases hx'), fun c' db hs => (by cases hs)⟩
    · obtain ⟨c₁, htransfer, rfl⟩ := Option.map_eq_some_iff.mp h
      refine ⟨rfl, fun x' hx' => (by cases hx'), fun c' db hs => ?_⟩
      obtain ⟨rfl, -⟩ := Sender.transferring.inj hs
      exact doTransfer_frame htransfer

/-- What the messages of a round have made of the table, and what has been sent. -/
structure Served (site : Site) (left : SocketAddrV4 → Prop) (db₀ db : ClientTable)
    (sent : List Packet) : Prop where
  registered : Registered site.config.prepared db
  apart : ∀ i a, db.Occupies i a → a ≠ site.config.controlMcastAddr
  stays : ∀ i a, ¬left a → db₀.Occupies i a → db.Occupies i a
  sent : ∀ p ∈ sent, p = site.config.prepared.hello false ∨ ∃ client clNr,
    p = site.config.prepared.reply client clNr ∧ client ≠ site.config.controlMcastAddr ∧
      (clNr = -1 ∨ ∃ i : ℕ, i < maxClients ∧ clNr = i ∧ (left client ∨ db.Occupies i client))

theorem Registered.lt {c : StartConfig} (h : Registered c db) (hi : db.Occupies i a) :
    i < maxClients := by
  obtain ⟨client, hi, -⟩ := hi
  have hlt := (List.getElem?_eq_some_iff.mp hi).1
  rwa [h.length] at hlt

section Served

variable {left : SocketAddrV4 → Prop} {db₀ : ClientTable} {sent : List Packet}

theorem Served.change (h : Served site left db₀ db sent) {db' : ClientTable} {more : List Packet}
    (hregistered : Registered site.config.prepared db')
    (hapart : ∀ i a, db'.Occupies i a → a ≠ site.config.controlMcastAddr)
    (hstays : ∀ i a, ¬left a → db.Occupies i a → db'.Occupies i a)
    (hmore : ∀ p ∈ more, p = site.config.prepared.hello false ∨ ∃ client clNr,
      p = site.config.prepared.reply client clNr ∧ client ≠ site.config.controlMcastAddr ∧
        (clNr = -1 ∨ ∃ i : ℕ, i < maxClients ∧ clNr = i ∧ (left client ∨ db'.Occupies i client))) :
    Served site left db₀ db' (sent ++ more) where
  registered := hregistered
  apart := hapart
  stays i a ha hi := hstays i a ha (h.stays i a ha hi)
  sent := by
    intro p hp
    rcases List.mem_append.mp hp with hp | hp
    · rcases h.sent p hp with hhello | ⟨client, clNr, hreply, hclient, hnr⟩
      · exact Or.inl hhello
      · refine Or.inr ⟨client, clNr, hreply, hclient, ?_⟩
        rcases hnr with hnr | ⟨i, hi, hnr, hleft | hoccupies⟩
        · exact Or.inl hnr
        · exact Or.inr ⟨i, hi, hnr, Or.inl hleft⟩
        · refine Or.inr ⟨i, hi, hnr, ?_⟩
          by_cases hleft : left client
          · exact Or.inl hleft
          · exact Or.inr (hstays i client hleft hoccupies)
    · exact hmore p hp

theorem Served.handled (h : Served site left db₀ db sent) {source : SocketAddrV4}
    {buf : List UInt8} {r : ClientTable × List Packet × Bool}
    (hsource : source ≠ site.config.controlMcastAddr)
    (hleft : opcodeOf buf = cmdDisconnect → left source)
    (hr : Handled site.config.prepared db source buf r) :
    Served site left db₀ r.1 (sent ++ r.2.1) := by
  have hregistered := h.registered.handled hr
  cases hr with
  | ignored go =>
    exact h.change hregistered h.apart (fun _ _ _ hi => hi) fun p hp => (by cases hp)
  | joined capabilities rcvbuf hcap hbuf =>
    have hadd := addParticipant_cases db source capabilities rcvbuf
      (site.config.prepared.hasFlag flagPointopoint)
    have hnumber : ∀ i : ℕ, (db.addParticipant source capabilities rcvbuf
        (site.config.prepared.hasFlag flagPointopoint)).2 = (i : ℤ) →
          (db.addParticipant source capabilities rcvbuf
            (site.config.prepared.hasFlag flagPointopoint)).1.Occupies i source :=
      fun i => occupies_addParticipant
    have hstays : ∀ i a, db.Occupies i a → (db.call (.addParticipant source capabilities rcvbuf
        (site.config.prepared.hasFlag flagPointopoint))).Occupies i a :=
      fun i a hi => hi.call (by simp)
    dsimp only [ClientTable.call] at hregistered hstays ⊢
    refine h.change hregistered (fun i a hi => ?_) (fun i a _ hi => hstays i a hi) fun p hp => ?_
    · obtain ⟨_, -, heq⟩ | ⟨k, -, hfree, heq⟩ | heq := hadd
      · rw [heq] at hi
        exact h.apart i a hi
      · rw [heq] at hi
        obtain ⟨-, rfl⟩ | hi := (occupies_modify (freeEntry_eq_some hfree).1).mp hi
        · exact hsource
        · exact h.apart i a hi
      · rw [heq] at hi
        exact h.apart i a hi
    · obtain rfl := List.mem_singleton.mp hp
      refine Or.inr ⟨source, _, rfl, hsource, ?_⟩
      obtain ⟨k, -, heq⟩ | ⟨k, -, -, heq⟩ | heq := hadd
      · have hk := hnumber k (by rw [heq])
        exact Or.inr ⟨k, hregistered.lt hk, by rw [heq], Or.inr hk⟩
      · have hk := hnumber k (by rw [heq])
        exact Or.inr ⟨k, hregistered.lt hk, by rw [heq], Or.inr hk⟩
      · exact Or.inl (by rw [heq])
  | departed i hi hread =>
    have hsourceLeft : left source := hleft (by
      unfold readNegotiation at hread
      split at hread
      · cases hread
      · split at hread
        · split at hread
          · cases hread
          · cases hread
        · split at hread
          · cases hread
          · split at hread
            · assumption
            · cases hread)
    refine h.change hregistered (fun j a hj => ?_) (fun j a ha hj => ?_) fun p hp => (by cases hp)
    · exact h.apart j a (occupies_removeParticipant.mp hj).2
    · refine occupies_removeParticipant.mpr ⟨?_, hj⟩
      rintro rfl
      -- the entry is that of a receiver that has left
      obtain ⟨client, hclient, -, rfl⟩ := hi
      obtain ⟨other, hother, -, rfl⟩ := hj
      rw [hclient, Option.some_inj] at hother
      rw [← hother] at ha
      exact ha hsourceLeft

end Served

theorem round_not_cancels {x : Negotiation} {loopStart : ℕ} {r : Round} {p : Sender × List Packet}
    (h : round c loopStart (.negotiating x) r = some p) : ¬r.cancels := by
  rintro ⟨datagrams, hsel⟩
  rw [round, dispatchRound, hsel] at h
  cases h

/-- The messages of a round are served, and then it is decided. -/
theorem Agrees.served (h : Agrees site s) {r : Round} (hd : Delivers site s (.round r))
    {x : Negotiation} (hsender : s.sender = .negotiating x) {s₁ : Sender} {sent : List Packet}
    (hround : Negotiate.round site.config.prepared site.loopStart (.negotiating x) r
      = some (s₁, sent)) :
    ∃ x' decision, conclude site.config.prepared x' decision = some s₁ ∧
      Served site (fun a => s.receivers a = .left) x.db x'.db sent := by
  have hapart := h.apart
  rw [hsender] at hapart
  have hstart : Served site (fun a => s.receivers a = .left) x.db x.db [] :=
    ⟨h.registered x hsender, hapart, fun _ _ _ hi => hi, fun p hp => (by cases hp)⟩
  obtain ⟨x', more, decision, hdispatch, hserved⟩ := dispatchRound_invariant
    hstart (round_not_cancels hround)
    (fun db sent more hdb hmore => hdb.change hdb.registered hdb.apart (fun _ _ _ hi => hi)
      fun p hp => Or.inl (hmore p hp))
    fun m hm db sent r hdb hr => hdb.handled (hd m hm).1 (fun hop => by
      obtain ⟨p, hp, hsource, hopcode⟩ := (hd m hm).2 hop
      cases h.known p hp with
      | hello streaming => cases streaming <;> cases hopcode
      | reply _ _ _ _ _ _ _ _ => cases hopcode
      | request _ _ _ => cases hopcode
      | disconnect _ _ hleft => rwa [← hsource]) hr
  rw [List.nil_append] at hserved
  rw [round_eq hdispatch] at hround
  obtain ⟨s₂, hconclude, heq⟩ := Option.map_eq_some_iff.mp hround
  obtain ⟨rfl, rfl⟩ := Prod.mk.inj heq
  exact ⟨x', decision, hconclude, hserved⟩

theorem Agrees.round (h : Agrees site s) {r : Round} (hd : Delivers site s (.round r))
    (hs : step site s (.round r) = some s') : Agrees site s' := by
  obtain ⟨⟨s₁, more⟩, hround, rfl⟩ := Option.map_eq_some_iff.mp hs
  cases hsender : s.sender with
  | negotiating x =>
    rw [hsender] at hround
    obtain ⟨x', decision, hconclude, hserved⟩ := h.served hd hsender hround
    obtain ⟨htable, hnegotiating, htransferring⟩ := conclude_cases hconclude
    have hlater : Later site s { s with sender := s₁, network := s.network ++ more } := by
      refine ⟨fun _ ha => ha, fun ip hip => ?_, fun hold => ?_, fun i a hi => ?_⟩
      · rcases hip with hip | ⟨c', db, hs', -⟩
        · exact Or.inl hip
        · rw [hsender] at hs'
          cases hs'
      · obtain ⟨c', db, hs', -⟩ := hold
        rw [hsender] at hs'
        cases hs'
      · rw [hsender] at hi
        by_cases hleft : s.receivers a = .left
        · exact Or.inl hleft
        · right
          apply holds_of_occupies
          rw [htable]
          exact hserved.stays i a hleft hi
    refine ⟨?_, ?_, ?_, ?_, fun p hp => ?_, fun a x hx hnew => ?_, fun a x hx => ?_, h.listening⟩
    · rintro x'' hx''
      rw [hnegotiating x'' hx'']
      exact hserved.registered
    · rw [htable]
      exact hserved.registered.length
    · rw [htable]
      exact hserved.apart
    · intro c' db hs'
      obtain ⟨hconfig, haddress⟩ := htransferring c' db hs'
      exact ⟨congrArg NetConfig.blockSize hconfig, haddress⟩
    · rcases List.mem_append.mp hp with hp | hp
      · exact hlater.known (h.known p hp)
      · rcases hserved.sent p hp with rfl | ⟨client, clNr, rfl, hclient, hnr⟩
        · exact Known.hello false
        · have hnew : senderCapabilities site.config.toNetConfig &&& capNewGen ≠ 0 :=
            senderCapabilities_and _ (by decide)
          refine Known.reply client clNr _ _ hclient (Or.inl rfl) (Or.inl hnew) ?_
          rcases hnr with hnr | ⟨i, hi, hnr, hleft | hoccupies⟩
          · exact Or.inl hnr
          · exact Or.inr ⟨i, hi, hnr, Or.inl hleft⟩
          · exact Or.inr ⟨i, hi, hnr, Or.inr (holds_of_occupies (by rwa [htable]))⟩
    · exact hlater.group _ (h.looking a x hx hnew)
    · exact hlater.agreed hx (h.connected a x hx)
  | returned db =>
    rw [hsender] at hround
    cases hround
  | transferring c db =>
    rw [hsender] at hround
    cases hround

/-- In the transfer, entries are only left, and no address changes. -/
theorem Agrees.transfer (h : Agrees site s) (hsender : s.sender = .transferring c db)
    {db' : ClientTable} (hlength : db'.clientTable.length = db.clientTable.length)
    (hoccupies : ∀ i a, db'.Occupies i a → db.Occupies i a)
    (hholds : ∀ i a, Holds (.transferring c db) i a → Holds (.transferring c db') i a) :
    Agrees site { s with sender := .transferring c db' } := by
  have hlater : Later site s { s with sender := .transferring c db' } := by
    refine ⟨fun _ ha => ha, fun ip hip => ?_, fun hold => ?_, fun i a hi => ?_⟩
    · rcases hip with hip | ⟨c', db₁, hs, hip⟩
      · exact Or.inl hip
      · rw [hsender] at hs
        obtain ⟨rfl, -⟩ := Sender.transferring.inj hs
        exact Or.inr ⟨c, db', rfl, hip⟩
    · obtain ⟨c', db₁, hs, hcap⟩ := hold
      rw [hsender] at hs
      obtain ⟨rfl, -⟩ := Sender.transferring.inj hs
      exact ⟨c, db', rfl, hcap⟩
    · rw [hsender] at hi
      exact Or.inr (hholds i a hi)
  have hsize := h.length
  have hapart := h.apart
  rw [hsender] at hsize hapart
  refine ⟨fun x hx => (by cases hx), hlength.trans hsize,
    fun i a hi => hapart i a (hoccupies i a hi), fun c' db₁ hs => ?_,
    fun p hp => hlater.known (h.known p hp),
    fun a x hx hnew => hlater.group _ (h.looking a x hx hnew),
    fun a x hx => hlater.agreed hx (h.connected a x hx), h.listening⟩
  obtain ⟨rfl, -⟩ := Sender.transferring.inj hs
  exact h.same c db hsender

theorem Agrees.drop (h : Agrees site s) (hs : step site s (.drop i) = some s') :
    Agrees site s' := by
  rw [step] at hs
  split at hs
  · rename_i c db hsender
    obtain rfl := Option.some.inj hs
    apply h.transfer hsender (length_call db (.removeParticipant i))
    · intro j a hj
      exact (occupies_removeParticipant.mp hj).2
    · rintro j a ⟨client, hj, haddr⟩
      obtain ⟨old, hi, -, heq⟩ | ⟨-, heq⟩ := removeParticipant_cases db i
      · rw [ClientTable.call, heq]
        by_cases hji : j = i
        · subst hji
          rw [hi, Option.some_inj] at hj
          exact ⟨_, modify_eq_some.mpr (Or.inl ⟨rfl, old, hi, rfl⟩), by rw [← haddr, ← hj]⟩
        · exact ⟨client, modify_eq_some.mpr (Or.inr ⟨hji, hj⟩), haddr⟩
      · rw [ClientTable.call, heq]
        exact ⟨client, hj, haddr⟩
  · cases hs

theorem Agrees.answered (h : Agrees site s) {sliceNo : Option ℤ} {round : ℤ}
    (hs : step site s (.answered i sliceNo round) = some s') : Agrees site s' := by
  rw [step] at hs
  split at hs
  · rename_i c db hsender
    obtain rfl := Option.some.inj hs
    apply h.transfer hsender (length_call db (.markAnswered i sliceNo round))
    · intro j a hj
      exact occupies_markAnswered.mp hj
    · rintro j a ⟨client, hj, haddr⟩
      by_cases hji : j = i
      · subst hji
        exact ⟨_, modify_eq_some.mpr (Or.inl ⟨rfl, client, hj, rfl⟩), haddr⟩
      · exact ⟨client, modify_eq_some.mpr (Or.inr ⟨hji, hj⟩), haddr⟩
  · cases hs

theorem Agrees.send (h : Agrees site s) {more : List Packet} (hmore : ∀ p ∈ more, Known site s p) :
    Agrees site { s with network := s.network ++ more } := by
  have hlater : Later site s { s with network := s.network ++ more } :=
    ⟨fun _ ha => ha, fun _ hip => hip, id, fun _ _ hi => Or.inr hi⟩
  refine ⟨h.registered, h.length, h.apart, h.same, fun p hp => hlater.known ?_, h.looking,
    h.connected, h.listening⟩
  rcases List.mem_append.mp hp with hp | hp
  · exact h.known p hp
  · exact hmore p hp

theorem Agrees.lateReplies (h : Agrees site s) (hs : step site s .lateReplies = some s') :
    Agrees site s' := by
  rw [step] at hs
  split at hs
  · rename_i c db hsender
    obtain rfl := Option.some.inj hs
    apply h.send
    intro p hp
    obtain ⟨i, hi, hp⟩ := List.mem_flatMap.mp hp
    cases hentry : db.clientTable[i]? with
    | none =>
      rw [hentry] at hp
      cases hp
    | some client =>
      rw [hentry] at hp
      dsimp only at hp
      split at hp
      · rename_i hused
        obtain rfl := List.mem_singleton.mp hp
        obtain ⟨hblock, haddress⟩ := h.same c db hsender
        have hapart := h.apart i client.addr
        rw [hsender] at hapart
        rw [StartConfig.reply, StartConfig.replyMessage, hblock, haddress]
        have hnew : c.capabilities &&& capNewGen ≠ 0 ∨ Older s.sender := by
          by_cases hcap : c.capabilities &&& capNewGen = 0
          · exact Or.inr ⟨c, db, hsender, hcap⟩
          · exact Or.inl hcap
        refine Known.reply client.addr i c.capabilities c.dataMcastAddr.ip
          (hapart ⟨client, hentry, hused.1, rfl⟩) (Or.inr ⟨c, db, hsender, rfl⟩) hnew
          (Or.inr ⟨i, List.mem_range.mp hi, rfl, Or.inr ?_⟩)
        rw [hsender]
        exact ⟨client, hentry, rfl⟩
      · cases hp
  · cases hs

/-! ### The receivers -/

theorem ip4From16_ip4Into16 (ip : BitVec 32) : ip4From16 (ip4Into16 ip) = ip := by
  rw [ip4From16, ip4Into16, field_head (length_toBe ..), ofBe_toBe_u32 ip.isLt, BitVec.ofNat_toNat,
    BitVec.setWidth_eq]

theorem length_ip4Into16 (ip : BitVec 32) : (ip4Into16 ip).length = 16 := by
  rw [ip4Into16, List.length_append, length_toBe, List.length_replicate]

theorem asU32_asI32 {n : ℕ} (h : n < 2 ^ 32) : asU32 (asI32 n) = n := by
  have hmod : asI32 n % 2 ^ 32 = n := by
    show Int.bmod n (2 ^ 32) % ((2 ^ 32 : ℕ) : ℤ) = n
    rw [Int.bmod_emod]
    exact_mod_cast Nat.mod_eq_of_lt h
  rw [asU32, hmod, Int.toNat_natCast]

theorem asU32_asI16 {n : ℕ} (h : n < 2 ^ 15) : asU32 (asI16 (asI32 n)) = n := by
  have h32 : asI32 n = n := Int.bmod_eq_of_le (by norm_num) (by norm_num; omega)
  have h16 : asI16 (n : ℤ) = n := Int.bmod_eq_of_le (by norm_num) (by norm_num; omega)
  rw [h32, h16, asU32]
  omega

theorem opcodeOf_eq_of_pack {m : Message} {buf : List UInt8} (h : m.pack <+: buf) :
    opcodeOf buf = m.opcode := by
  obtain ⟨rest, rfl⟩ := h
  exact opcodeOf_pack m rest

theorem known_of_sent {p : Packet} {rcvbuf : ℕ} {left : Prop} (hleft : left → s.receivers a = .left)
    (hp : p.source = a ∧ (p.message = .connectReq ⟨receiverCapabilities.toNat, rcvbuf⟩ ∨
      p.message = .disconnect ∧ left)) : Known site s p := by
  obtain ⟨source, dest, message⟩ := p
  obtain ⟨rfl, rfl | ⟨rfl, hl⟩⟩ := hp
  · exact Known.request _ dest _
  · exact Known.disconnect _ dest (hleft hl)

theorem Agrees.hello (h : Agrees site s) {p : Packet} {buf : List UInt8} {opcode : HelloOpcode}
    (hp : p ∈ s.network) (hpre : p.message.pack <+: buf)
    (hop : helloOpcode (opcodeOf buf) = some opcode) :
    ip4From16 (Hello.unpack buf).mcast = site.config.dataMcastAddr.ip ∧
      (site.config.blockSize < 2 ^ 15 → asU32 (Hello.unpack buf).blockSize = site.config.blockSize) := by
  rw [opcodeOf_eq_of_pack hpre] at hop
  cases h.known p hp with
  | hello streaming =>
    obtain ⟨rest, rfl⟩ := hpre
    have hunpack := Hello.unpack_pack (s := rest)
      (m := ⟨site.config.prepared.capabilities.toNat, ip4Into16 site.config.prepared.dataMcastAddr.ip,
        asI32 site.config.prepared.blockSize⟩) (if streaming then HelloOpcode.streaming else .new).code
      (BitVec.isLt _) (length_ip4Into16 _)
    show ip4From16 (Hello.unpack (Hello.pack _ _ ++ rest)).mcast = _ ∧ (_ → asU32
      (Hello.unpack (Hello.pack _ _ ++ rest)).blockSize = _)
    rw [hunpack]
    refine ⟨ip4From16_ip4Into16 _, fun hlt => ?_⟩
    dsimp only
    exact asU32_asI16 hlt
  | reply _ _ _ _ _ _ _ _ => cases hop
  | request _ _ _ => cases hop
  | disconnect _ _ _ => cases hop

theorem unpack_reply {clNr blockSize : ℤ} (h : IsI32 clNr) (hb : IsI32 blockSize)
    (capabilities ip : BitVec 32) (rest : List UInt8) :
    ConnectReply.unpack
      (ConnectReply.pack ⟨clNr, blockSize, capabilities.toNat, ip4Into16 ip⟩ ++ rest) =
        ⟨clNr, blockSize, capabilities.toNat, ip4Into16 ip⟩ :=
  ConnectReply.unpack_pack h hb capabilities.isLt (length_ip4Into16 ip)

theorem Agrees.reply (h : Agrees site s) {p : Packet} {d : Arrival} {x : Joining}
    (hp : p ∈ s.network) (hsource : p.source = d.source)
    (hdest : p.dest = a ∨ p.dest = site.config.controlMcastAddr)
    (hpre : p.message.pack <+: d.buf) (hop : opcodeOf d.buf = cmdConnectReply)
    (hnr : (ConnectReply.unpack d.buf).clNr ≠ -1)
    (hgroup : x.senderIsNewgen = true → Group site.config s.sender x.dataMcastAddr.ip) :
    s.receivers a = .left ∨
      Agreed site.config s.sender a (x.takeReply d.source (.unpack d.buf)) := by
  have hop' := hop
  rw [opcodeOf_eq_of_pack hpre] at hop'
  cases h.known p hp with
  | hello streaming => cases streaming <;> cases hop'
  | reply client clNr capabilities ip hclient hip hcap hclNr =>
    obtain rfl : client = a := hdest.resolve_right hclient
    have htyped : IsI32 clNr := by
      rcases hclNr with rfl | ⟨i, hi, rfl, -⟩
      · rw [IsI32]
        norm_num
      · rw [maxClients] at hi
        exact ⟨by omega, by omega⟩
    obtain ⟨rest, hrest⟩ := hpre
    have hbuf : ConnectReply.unpack d.buf =
        ⟨clNr, asI32 site.config.blockSize, capabilities.toNat, ip4Into16 ip⟩ := by
      rw [← hrest]
      exact unpack_reply htyped (isI32_asI32 site.config.blockSize) capabilities ip rest
    obtain ⟨hnumber, hsize, hserver, hnew, hold⟩ := x.takeReply_frame d.source (.unpack d.buf)
    have hblock := asU32_asI32 site.config.blockSize_lt
    rw [hbuf] at hnr hnumber hsize hserver hnew hold ⊢
    generalize asI32 site.config.blockSize = wired at hblock hnr hnumber hsize hserver hnew hold ⊢
    dsimp only at hnr hnumber hsize hnew hold
    rw [hblock] at hsize
    rw [ip4From16_ip4Into16] at hnew
    rw [BitVec.ofNat_toNat, BitVec.setWidth_eq] at hnew hold
    rcases hclNr with hminus | ⟨i, -, hi, hleft | hholds⟩
    · exact absurd hminus hnr
    · exact Or.inl hleft
    · refine Or.inr ⟨⟨i, hnumber.trans hi, hholds⟩, hsize, hserver.trans hsource.symm, ?_, fun hnewgen => ?_⟩
      · exact hcap.imp_left fun hcap => (hnew hcap).1
      · by_cases hzero : capabilities &&& capNewGen = 0
        · obtain ⟨hkept, hdata⟩ := hold hzero
          rw [hdata]
          exact hgroup (hkept ▸ hnewgen)
        · rw [(hnew hzero).2]
          exact hip
  | request _ _ _ => cases hop'
  | disconnect _ _ _ => cases hop'

theorem Agrees.update (h : Agrees site s) {r : Receiver} {sent : List Packet}
    (hmoves : s.receivers a ≠ .left ∨ r = .left)
    (hsent : ∀ p ∈ sent, p.source = a ∧ (p.message = .connectReq ⟨receiverCapabilities.toNat,
      (site.rcvbuf a).toNat⟩ ∨ p.message = .disconnect ∧ r = .left))
    (hlooking : ∀ x, r = .looking x → x.senderIsNewgen = true →
      Group site.config s.sender x.dataMcastAddr.ip)
    (hconnected : ∀ x, r = .connected x → Agreed site.config s.sender a x)
    (hlistening : ∀ x, r = .listening x → x.dataMcastAddr.ip = site.config.dataMcastAddr.ip ∧
      (site.config.blockSize < 2 ^ 15 → x.blockSize = site.config.blockSize)) :
    Agrees site { s with
      receivers := Function.update s.receivers a r, network := s.network ++ sent } := by
  have hself : ∀ {b r'}, Function.update s.receivers a r b = r' →
      b = a ∧ r = r' ∨ s.receivers b = r' := by
    intro b r' hb
    by_cases hba : b = a
    · rw [hba, Function.update_self] at hb
      exact Or.inl ⟨hba, hb⟩
    · rw [Function.update_of_ne hba] at hb
      exact Or.inr hb
  have hlater : Later site s { s with
      receivers := Function.update s.receivers a r, network := s.network ++ sent } := by
    refine ⟨fun b hb => ?_, fun _ hip => hip, id, fun _ _ hi => Or.inr hi⟩
    dsimp only
    by_cases hba : b = a
    · rw [hba] at hb ⊢
      rw [Function.update_self]
      exact hmoves.resolve_left fun hne => hne hb
    · rw [Function.update_of_ne hba, hb]
  refine ⟨h.registered, h.length, h.apart, h.same, fun p hp => ?_, fun b x hb => ?_,
    fun b x hb => ?_, fun b x hb => ?_⟩
  · rcases List.mem_append.mp hp with hp | hp
    · exact hlater.known (h.known p hp)
    · have hleft : r = .left → Function.update s.receivers a r a = .left := by
        intro hr
        rw [Function.update_self, hr]
      exact known_of_sent hleft (hsent p hp)
  · rcases hself hb with ⟨-, hr⟩ | hb
    · exact hlooking x hr
    · exact h.looking b x hb
  · rcases hself hb with ⟨rfl, hr⟩ | hb
    · exact hconnected x hr
    · exact h.connected b x hb
  · rcases hself hb with ⟨-, hr⟩ | hb
    · exact hlistening x hr
    · exact h.listening b x hb

theorem Agrees.turn (h : Agrees site s) {t : Turn} (hd : Delivers site s (.turn a t))
    (hs : step site s (.turn a t) = some s') : Agrees site s' := by
  obtain ⟨⟨r, sent⟩, hturn, rfl⟩ := Option.map_eq_some_iff.mp hs
  cases hreceiver : s.receivers a with
  | looking x =>
    rw [hreceiver] at hturn
    obtain ⟨hsent, x', hnew, hgroup, hr⟩ := turn_cases hturn
    have hfollows : x'.senderIsNewgen = true → Group site.config s.sender x'.dataMcastAddr.ip := by
      rw [hnew, hgroup]
      exact h.looking a x hreceiver
    have hmoves : s.receivers a ≠ .left ∨ r = .left := by
      rw [hreceiver]
      exact Or.inl (by simp)
    rcases hr with rfl | rfl | ⟨d, hmem, hdispatched⟩
    · refine h.update hmoves hsent (fun y hy => ?_) (fun y hy => by cases hy) fun y hy => by cases hy
      obtain rfl := Receiver.looking.inj hy
      exact hfollows
    · exact h.update hmoves hsent (fun y hy => by cases hy) (fun y hy => by cases hy)
        fun y hy => by cases hy
    · have hgenuine := hd d hmem
      cases hdispatched with
      | kept late =>
        refine h.update hmoves hsent (fun y hy => ?_) (fun y hy => by cases hy) fun y hy => by cases hy
        obtain rfl := Receiver.looking.inj hy
        exact hfollows
      | left =>
        exact h.update hmoves hsent (fun y hy => by cases hy) (fun y hy => by cases hy)
          fun y hy => by cases hy
      | connected hport hop _ hnr =>
        obtain ⟨p, hp, hsource, hdest, hpre⟩ := hgenuine hport (Or.inl hop)
        have hagreed := (h.reply hp hsource hdest hpre hop hnr hfollows).resolve_left
          (by rw [hreceiver]; simp)
        refine h.update hmoves hsent (fun y hy => by cases hy) (fun y hy => ?_) fun y hy => by cases hy
        obtain rfl := Receiver.connected.inj hy
        exact hagreed
      | heard opcode hport hop =>
        obtain ⟨p, hp, -, -, hpre⟩ := hgenuine hport (Or.inr (by rw [hop]; rfl))
        obtain ⟨hip, hblock⟩ := h.hello hp hpre hop
        have hhello : ∀ {hello}, (if d.n ≥ 28 then some (Hello.unpack d.buf) else none) = some hello →
            hello = Hello.unpack d.buf := by
          intro hello heq
          split at heq
          · exact (Option.some.inj heq).symm
          · cases heq
        rcases x'.hear_cases d.source opcode (if d.n ≥ 28 then some (Hello.unpack d.buf) else none) with
          ⟨y, hy, hkept⟩ | ⟨hello, y, hsome, hy, hdata, hsize⟩
        · rw [hy]
          refine h.update (Or.inl (by rw [hreceiver]; simp)) (by rwa [hy] at hsent)
            (fun z hz => ?_) (fun z hz => by cases hz) fun z hz => by cases hz
          obtain rfl := Receiver.looking.inj hz
          rcases hkept with ⟨hn, hg⟩ | ⟨hello, hsome, hdata⟩
          · rw [hn, hg]
            exact hfollows
          · intro _
            rw [hdata, hhello hsome]
            exact Or.inl hip
        · rw [hy]
          refine h.update (Or.inl (by rw [hreceiver]; simp)) (by rwa [hy] at hsent)
            (fun z hz => by cases hz) (fun z hz => by cases hz) fun z hz => ?_
          obtain rfl := Receiver.listening.inj hz
          rw [hdata, hsize, hhello hsome]
          exact ⟨hip, hblock⟩
  | connected x =>
    rw [hreceiver] at hturn
    cases hturn
  | listening x =>
    rw [hreceiver] at hturn
    cases hturn
  | left =>
    rw [hreceiver] at hturn
    cases hturn

theorem Agrees.leave (h : Agrees site s) {exitStatus : ℤ}
    (hs : step site s (.leave a exitStatus) = some s') : Agrees site s' := by
  rw [step] at hs
  split at hs
  · obtain rfl := Option.some.inj hs
    exact h.update (Or.inr rfl)
      (fun p hp => ⟨(sendDisconnect_mem hp).1, Or.inr ⟨(sendDisconnect_mem hp).2, rfl⟩⟩)
      (fun y hy => by cases hy) (fun y hy => by cases hy) fun y hy => by cases hy
  · obtain rfl := Option.some.inj hs
    exact h.update (Or.inr rfl)
      (fun p hp => ⟨(sendDisconnect_mem hp).1, Or.inr ⟨(sendDisconnect_mem hp).2, rfl⟩⟩)
      (fun y hy => by cases hy) (fun y hy => by cases hy) fun y hy => by cases hy
  · cases hs

theorem Agrees.step (h : Agrees site s) {action : Action} (hd : Delivers site s action)
    (hs : Negotiate.step site s action = some s') : Agrees site s' := by
  cases action with
  | round r => exact h.round hd hs
  | lateReplies => exact h.lateReplies hs
  | drop i => exact h.drop hs
  | answered i sliceNo round => exact h.answered hs
  | turn a t => exact h.turn hd hs
  | leave a exitStatus => exact h.leave hs

theorem agrees_start (site : Site) : Agrees site (System.start site) where
  registered x hx := by
    obtain rfl := Sender.negotiating.inj hx
    exact registered_new _
  length := List.length_replicate
  apart _ _ hi := absurd hi new_occupies
  same c db hs := by cases hs
  known p hp := by
    obtain rfl := List.mem_singleton.mp hp
    exact Known.hello false
  looking a x hx hnew := by
    obtain rfl := Receiver.looking.inj hx
    cases hnew
  connected a x hx := by cases hx
  listening a x hx := by cases hx

/-- Every rendezvous.  A receiver that is connected has the number of the entry that the sender keeps
for its address, and the block size and the address of the sender; it is of the new generation and has
the group, unless the transfer has started with a participant of the old one; no two receivers have
the same number; and one that listens without a number has the group, and the block size if that
fits the field of a HELLO. -/
theorem connected_agrees (site : Site) (s : System)
    (hrun : Run.Reach (step site) (Delivers site) (System.start site) s) :
    (∀ a x, s.receivers a = .connected x → Agreed site.config s.sender a x) ∧
    (∀ a b x y, s.receivers a = .connected x → s.receivers b = .connected y →
      x.clientNumber = y.clientNumber → a = b) ∧
    ∀ a x, s.receivers a = .listening x → x.dataMcastAddr.ip = site.config.dataMcastAddr.ip ∧
      (site.config.blockSize < 2 ^ 15 → x.blockSize = site.config.blockSize) := by
  have h := hrun.invariant (I := Agrees site) (agrees_start site)
    fun s action s' hi hd hs => hi.step hd hs
  refine ⟨h.connected, fun a b x y ha hb hnr => ?_, h.listening⟩
  obtain ⟨i, hi, hholds⟩ := (h.connected a x ha).number
  obtain ⟨j, hj, hother⟩ := (h.connected b y hb).number
  obtain rfl : i = j := by omega
  exact hholds.address hother

/-! ### Two receivers -/

instance (opcode : ℕ) : Decidable (invites opcode) := inferInstanceAs (Decidable (_ ∨ _))

instance (site : Site) (s : System) : (action : Action) → Decidable (Delivers site s action)
  | .round _ => inferInstanceAs (Decidable (∀ _ ∈ _, _ ∧ (_ → ∃ _ ∈ _, _)))
  | .turn _ _ => inferInstanceAs (Decidable (∀ _ ∈ _, _ → _ → ∃ _ ∈ _, _))
  | .lateReplies | .drop _ | .answered _ _ _ | .leave _ _ => inferInstanceAs (Decidable True)

def twoReceivers : Site where
  config := oneSender
  loopStart := 0
  controlAddr := ⟨0x0a0000ff, 9001⟩
  flags _ := 0
  rcvbuf _ := 4096
  startTimeout _ := 0
  started _ := 0

def first : SocketAddrV4 := ⟨0x0a000002, 9000⟩
def second : SocketAddrV4 := ⟨0x0a000003, 9000⟩

/-- A reply of the sender arrives. -/
def takesReply (a : SocketAddrV4) (clNr : ℤ) : Action :=
  .turn a ⟨0, [⟨oneSender.address, 32, (oneSender.prepared.reply a clNr).message.pack⟩], 0⟩

def bothConnect : List Action :=
  [.turn first ⟨0, [], 0⟩, .turn second ⟨0, [], 0⟩,
    .round ⟨0, .ready none [(first, ConnectReq.pack ⟨73, 4096⟩),
      (second, ConnectReq.pack ⟨73, 4096⟩)], 0⟩,
    takesReply second 1, takesReply first 0]

def Sender.isNegotiating : Sender → Bool
  | .negotiating _ => true
  | _ => false

def Receiver.isConnected : Receiver → Bool
  | .connected _ => true
  | _ => false

theorem connected_agrees_twoReceivers : ∃ (s : System) (x y : Joining),
    s.receivers first = .connected x ∧ s.receivers second = .connected y ∧
      x.clientNumber ≠ y.clientNumber ∧ x.blockSize = 1456 ∧ x.senderIsNewgen = true ∧
      x.dataMcastAddr.ip = 0xe8000001 := by
  have hexec : (Run.exec (step twoReceivers) (Delivers twoReceivers) (System.start twoReceivers)
      bothConnect).map
        (fun s => s.sender.isNegotiating && (s.receivers first).isConnected &&
          (s.receivers second).isConnected) = some true := by
    decide +kernel
  obtain ⟨s, hrun, hp⟩ := Run.exists_reach_of_exec hexec
  obtain ⟨hagreed, hdistinct, -⟩ := connected_agrees twoReceivers s hrun
  rw [Bool.and_eq_true, Bool.and_eq_true] at hp
  have hnot : ∀ c db, s.sender ≠ .transferring c db := fun c db hs => by
    rw [hs] at hp
    exact Bool.false_ne_true hp.1.1
  cases hx : s.receivers first with
  | connected x =>
    cases hy : s.receivers second with
    | connected y =>
      have hx' := hagreed first x hx
      have hnewgen := hx'.newgen.resolve_right fun ⟨c, db, hs, _⟩ => hnot c db hs
      refine ⟨s, x, y, hx, hy, fun hnr => ?_, hx'.blockSize, hnewgen, ?_⟩
      · have hsame := hdistinct first second x y hx hy hnr
        exact absurd hsame (by decide)
      · exact (hx'.group hnewgen).resolve_right fun ⟨c, db, hs, _⟩ => hnot c db hs
    | _ => simp [hy, Receiver.isConnected] at hp
  | _ => simp [hx, Receiver.isConnected] at hp

end Udpcast.Negotiate
