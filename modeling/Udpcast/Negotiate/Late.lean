import Udpcast.Negotiate.Receiver
import Udpcast.Lib.Run

/-!
# The slices that are overheard

A receiver whose reply is late hears the transfer begin.  What it has noted when it joins is the list
of the slices it has heard of, each once, with the size in the last packet and the last round.
-/

namespace Udpcast.Negotiate

open Bytes

/-- What has been noted after a list of packets. -/
def noted (heard : List (ℤ × ℤ × ℤ)) : List (ℤ × ℤ × ℤ) :=
  heard.foldl (fun late e => noteLate e.1 e.2.1 e.2.2 late) []

section Noted

variable {s bytes rxmit : ℤ} {e : ℤ × ℤ × ℤ} {late heard : List (ℤ × ℤ × ℤ)}

theorem noted_concat (heard : List (ℤ × ℤ × ℤ)) (e : ℤ × ℤ × ℤ) :
    noted (heard ++ [e]) = noteLate e.1 e.2.1 e.2.2 (noted heard) := by
  rw [noted, List.foldl_append]
  rfl

theorem map_fst_noteLate (s bytes rxmit : ℤ) (late : List (ℤ × ℤ × ℤ)) :
    (noteLate s bytes rxmit late).map Prod.fst =
      if s ∈ late.map Prod.fst then late.map Prod.fst else late.map Prod.fst ++ [s] := by
  induction late with
  | nil => rfl
  | cons e late ih =>
    rw [noteLate]
    by_cases he : e.1 = s
    · rw [if_pos he]
      show s :: late.map Prod.fst = if s ∈ e.1 :: late.map Prod.fst then e.1 :: late.map Prod.fst else _
      rw [he, if_pos List.mem_cons_self]
    · rw [if_neg he, List.map_cons, List.map_cons, ih]
      by_cases hs : s ∈ late.map Prod.fst
      · rw [if_pos hs, if_pos (List.mem_cons_of_mem _ hs)]
      · rw [if_neg hs, if_neg (by simpa [Ne.symm he] using hs), List.cons_append]

theorem nodup_noteLate (h : (late.map Prod.fst).Nodup) :
    ((noteLate s bytes rxmit late).map Prod.fst).Nodup := by
  rw [map_fst_noteLate]
  split
  · exact h
  · rename_i hs
    rw [List.nodup_append]
    refine ⟨h, List.nodup_singleton s, fun a ha b hb => ?_⟩
    rintro rfl
    exact hs (List.mem_singleton.mp hb ▸ ha)

/-- What is noted of another slice stays, and what is noted of this one has the new size and the
later round. -/
theorem mem_noteLate (h : (late.map Prod.fst).Nodup) (he : e ∈ noteLate s bytes rxmit late) :
    e.1 ≠ s ∧ e ∈ late ∨ e.1 = s ∧ e.2.1 = bytes ∧
      (e.2.2 = rxmit ∧ (∀ old ∈ late, old.1 = s → old.2.2 ≤ rxmit) ∨
        ∃ old ∈ late, old.1 = s ∧ e.2.2 = old.2.2 ∧ rxmit ≤ old.2.2) := by
  induction late with
  | nil =>
    obtain rfl := List.mem_singleton.mp he
    exact Or.inr ⟨rfl, rfl, Or.inl ⟨rfl, fun old hold => by cases hold⟩⟩
  | cons first late ih =>
    rw [List.map_cons, List.nodup_cons] at h
    rw [noteLate] at he
    split at he
    · rename_i hfirst
      have hother : ∀ old ∈ late, old.1 ≠ s := by
        intro old hold heq
        apply h.1
        rw [hfirst, ← heq]
        exact List.mem_map_of_mem hold
      rcases List.mem_cons.mp he with rfl | he
      · right
        refine ⟨rfl, rfl, ?_⟩
        split
        · rename_i hlater
          left
          refine ⟨rfl, fun old hold heq => ?_⟩
          rcases List.mem_cons.mp hold with rfl | hold
          · exact hlater.le
          · exact absurd heq (hother old hold)
        · rename_i hearlier
          exact Or.inr ⟨first, List.mem_cons_self, hfirst, rfl, not_lt.mp hearlier⟩
      · exact Or.inl ⟨hother e he, List.mem_cons_of_mem _ he⟩
    · rename_i hfirst
      rcases List.mem_cons.mp he with rfl | he
      · exact Or.inl ⟨hfirst, List.mem_cons_self⟩
      · rcases ih h.2 he with ⟨hne, hmem⟩ | ⟨heq, hbytes, hround⟩
        · exact Or.inl ⟨hne, List.mem_cons_of_mem _ hmem⟩
        · refine Or.inr ⟨heq, hbytes, ?_⟩
          rcases hround with ⟨hr, hall⟩ | ⟨old, hold, hos, hr, hle⟩
          · left
            refine ⟨hr, fun old hold hos => ?_⟩
            rcases List.mem_cons.mp hold with rfl | hold
            · exact absurd hos hfirst
            · exact hall old hold hos
          · exact Or.inr ⟨old, List.mem_cons_of_mem _ hold, hos, hr, hle⟩

/-- The slices that have been heard of, with the size heard last and the highest round. -/
structure Latest (heard late : List (ℤ × ℤ × ℤ)) : Prop where
  nodup : (late.map Prod.fst).Nodup
  mem : ∀ s, s ∈ late.map Prod.fst ↔ s ∈ heard.map Prod.fst
  size : ∀ e ∈ late, ∃ before after round, heard = before ++ (e.1, e.2.1, round) :: after ∧
    ∀ e' ∈ after, e'.1 ≠ e.1
  round_le : ∀ e ∈ late, ∀ e' ∈ heard, e'.1 = e.1 → e'.2.2 ≤ e.2.2
  round_mem : ∀ e ∈ late, ∃ e' ∈ heard, e'.1 = e.1 ∧ e'.2.2 = e.2.2

theorem Latest.concat (h : Latest heard late) (new : ℤ × ℤ × ℤ) :
    Latest (heard ++ [new]) (noteLate new.1 new.2.1 new.2.2 late) where
  nodup := nodup_noteLate h.nodup
  mem := by
    intro s
    have hmem := h.mem s
    rw [map_fst_noteLate, List.map_append, List.mem_append, ← hmem]
    split
    · rename_i hnew
      constructor
      · exact Or.inl
      · rintro (hs | hs)
        · exact hs
        · rwa [List.mem_singleton.mp hs]
    · exact List.mem_append
  size := by
    intro e he
    rcases mem_noteLate h.nodup he with ⟨hne, hmem⟩ | ⟨heq, hbytes, -⟩
    · obtain ⟨before, after, round, hheard, hlast⟩ := h.size e hmem
      refine ⟨before, after ++ [new], round, by rw [hheard]; simp, fun e' he' => ?_⟩
      rcases List.mem_append.mp he' with he' | he'
      · exact hlast e' he'
      · rw [List.mem_singleton.mp he']
        exact Ne.symm hne
    · exact ⟨heard, [], new.2.2, by rw [heq, hbytes], fun e' he' => by cases he'⟩
  round_le := by
    intro e he e' he' hslice
    rcases mem_noteLate h.nodup he with ⟨hne, hmem⟩ | ⟨heq, -, hround⟩
    · rcases List.mem_append.mp he' with he' | he'
      · exact h.round_le e hmem e' he' hslice
      · rw [List.mem_singleton.mp he'] at hslice
        exact absurd hslice.symm hne
    · rcases List.mem_append.mp he' with he' | he'
      · -- the slice is noted, with a round that is not above the new one
        have hs : e'.1 ∈ late.map Prod.fst := (h.mem _).mpr (List.mem_map_of_mem he')
        obtain ⟨old, hold, hos⟩ := List.mem_map.mp hs
        have hle := h.round_le old hold e' he' hos.symm
        rcases hround with ⟨hr, hall⟩ | ⟨other, hother, hos', hr, -⟩
        · have hnew := hall old hold (hos.trans (hslice.trans heq))
          omega
        · have hle' := h.round_le other hother e' he' (by rw [hslice, heq, hos'])
          omega
      · rw [List.mem_singleton.mp he']
        rcases hround with ⟨hr, -⟩ | ⟨old, -, -, hr, hle⟩
        · exact hr.ge
        · omega
  round_mem := by
    intro e he
    rcases mem_noteLate h.nodup he with ⟨-, hmem⟩ | ⟨heq, -, hround⟩
    · obtain ⟨e', he', hslice, hr⟩ := h.round_mem e hmem
      exact ⟨e', List.mem_append_left _ he', hslice, hr⟩
    · rcases hround with ⟨hr, -⟩ | ⟨old, hold, hos, hr, -⟩
      · exact ⟨new, List.mem_append_right _ (List.mem_singleton_self _), heq.symm, hr.symm⟩
      · obtain ⟨e', he', hslice, hr'⟩ := h.round_mem old hold
        exact ⟨e', List.mem_append_left _ he', by rw [hslice, hos, heq], by rw [hr', hr]⟩

/-- What a packet of a transfer tells of its slice. -/
def overheardOf : Datagram → Option (ℤ × ℤ × ℤ)
  | .data msg _ => some (msg.sliceNo, msg.bytes, 0)
  | .fec msg _ => some (msg.sliceNo, msg.bytes, 0)
  | .reqack msg => some (msg.sliceNo, msg.bytes, msg.rxmit)
  | .skipped => none
  | .unexpected => none

theorem slice_of_overheard {d : Datagram} (h : overheardOf d = some e) :
    d.slice = some (e.1, e.2.1) := by
  cases d with
  | data msg _ =>
    obtain rfl := Option.some.inj h
    rfl
  | fec msg _ =>
    obtain rfl := Option.some.inj h
    rfl
  | reqack msg =>
    obtain rfl := Option.some.inj h
    rfl
  | skipped => cases h
  | unexpected => cases h

/-- By induction on what has been heard, the last packet last. -/
theorem latest_noted (heard : List (ℤ × ℤ × ℤ)) : Latest heard (noted heard) := by
  induction heard using List.reverseRecOn with
  | nil =>
    refine ⟨List.nodup_nil, fun s => Iff.rfl, ?_, ?_, ?_⟩
    · intro e he
      cases he
    · intro e he
      cases he
    · intro e he
      cases he
  | append_singleton heard e ih =>
    rw [noted_concat]
    exact ih.concat e

theorem slice_of_noted {datagrams : List Datagram}
    (he : e ∈ noted (datagrams.filterMap overheardOf)) :
    ∃ d ∈ datagrams, d.slice = some (e.1, e.2.1) := by
  obtain ⟨before, after, round, hheard, -⟩ := (latest_noted _).size e he
  have hmem : (e.1, e.2.1, round) ∈ datagrams.filterMap overheardOf := by
    rw [hheard]
    exact List.mem_append_right _ List.mem_cons_self
  obtain ⟨d, hd, hover⟩ := List.mem_filterMap.mp hmem
  exact ⟨d, hd, slice_of_overheard (e := (e.1, e.2.1, round)) hover⟩

end Noted

/-! ### The run of the receiver -/

/-- What a datagram tells of a slice. -/
def Arrival.heard (c : JoinConfig) (d : Arrival) : Option (ℤ × ℤ × ℤ) :=
  if d.source.port ≠ c.senderPort ∨ d.n < 4 then none
  else (overheard d.buf).filter fun e => e.1 ≥ 0

/-- The locals of a receiver that is not at its end. -/
def Receiver.joining : Receiver → Option Joining
  | .looking x => some x
  | .connected x => some x
  | .listening x => some x
  | .left => none

variable {c : JoinConfig} {x y : Joining}

theorem overheard_eq_none {buf : List UInt8} (h : opcodeOf buf = cmdConnectReply ∨
    opcodeOf buf = cmdConnectReq ∨ (helloOpcode (opcodeOf buf)).isSome = true) :
    overheard buf = none := by
  have hop : opcodeOf buf ≠ cmdReqack ∧ opcodeOf buf ≠ cmdData ∧ opcodeOf buf ≠ cmdFec := by
    rcases h with h | h | h
    · rw [h]
      decide
    · rw [h]
      decide
    · refine ⟨?_, ?_, ?_⟩
      · intro heq
        rw [heq] at h
        cases h
      · intro heq
        rw [heq] at h
        cases h
      · intro heq
        rw [heq] at h
        cases h
  rw [overheard, if_neg hop.1, if_neg hop.2.1, if_neg hop.2.2]

theorem dispatch_lateSlices {d : Arrival} (h : (dispatch c x d).joining = some y) :
    y.lateSlices = (d.heard c).elim x.lateSlices
      fun e => noteLate e.1 e.2.1 e.2.2 x.lateSlices := by
  unfold dispatch at h
  split at h
  · rename_i hport
    rw [Arrival.heard, if_pos hport]
    obtain rfl := Option.some.inj h
    rfl
  · rename_i hport
    rw [Arrival.heard, if_neg hport]
    split at h
    · rename_i hreply
      rw [overheard_eq_none (Or.inl hreply)]
      split at h
      · obtain rfl := Option.some.inj h
        rfl
      · have hlate : (x.takeReply d.source (.unpack d.buf)).lateSlices = x.lateSlices := by
          unfold Joining.takeReply
          dsimp only
          split
          · rfl
          · rfl
        dsimp only at h
        split at h
        · cases h
        · obtain rfl := Option.some.inj h
          exact hlate
    · split at h
      · rename_i opcode hhello
        rw [overheard_eq_none (Or.inr (Or.inr (by rw [hhello]; rfl)))]
        unfold Joining.hear at h
        split at h
        · dsimp only at h
          split at h
          · obtain rfl := Option.some.inj h
            rfl
          · obtain rfl := Option.some.inj h
            rfl
        · obtain rfl := Option.some.inj h
          rfl
      · split at h
        · rename_i hrequest
          rw [overheard_eq_none (Or.inr (Or.inl hrequest))]
          obtain rfl := Option.some.inj h
          rfl
        · split at h
          · rename_i slice size round heard
            rw [heard]
            obtain rfl := Option.some.inj h
            show (if slice ≥ 0 then _ else _) = _
            rw [Option.filter_some]
            by_cases hslice : slice ≥ 0
            · rw [if_pos hslice, if_pos (decide_eq_true hslice)]
              rfl
            · rw [if_neg hslice, if_neg (fun hd => hslice (of_decide_eq_true hd))]
              rfl
          · cases h

/-- What a turn hears, and what has been heard with it. -/
def Turn.heard (c : JoinConfig) (t : Turn) : Option (ℤ × ℤ × ℤ) :=
  (recvFromAnyNegotiate c t.arrivals).bind (Arrival.heard c)

def hears (c : JoinConfig) (_ : Receiver) (t : Turn) (_ : Receiver) (heard : List (ℤ × ℤ × ℤ)) :
    List (ℤ × ℤ × ℤ) := heard ++ (t.heard c).toList

/-- A turn, without what it sends. -/
def joinStep (c : JoinConfig) (r : Receiver) (t : Turn) : Option Receiver :=
  (turn c r t).map Prod.fst

theorem turn_lateSlices {t : Turn} {r : Receiver} {sent : List Packet}
    (h : turn c (.looking x) t = some (r, sent)) (hy : r.joining = some y) :
    y.lateSlices = (t.heard c).elim x.lateSlices
      fun e => noteLate e.1 e.2.1 e.2.2 x.lateSlices := by
  obtain ⟨last, asked, -, hawait⟩ := turn_looking h
  unfold await at hawait
  rw [Turn.heard]
  split at hawait
  · rename_i d hrecv
    obtain ⟨rfl, -⟩ := Prod.mk.inj hawait
    rw [hrecv]
    have hlate := dispatch_lateSlices hy
    exact hlate
  · rename_i hrecv
    rw [hrecv]
    split at hawait
    · obtain ⟨rfl, -⟩ := Prod.mk.inj hawait
      cases hy
    · obtain ⟨rfl, -⟩ := Prod.mk.inj hawait
      obtain rfl := Option.some.inj hy
      rfl

/-- The list for the late join.  At any time in any run of the negotiation it has every slice that
has been heard of, once, with the size in the last packet about it and the highest round. -/
theorem lateSlices_latest (c : JoinConfig) (flags now : ℕ) (p : Receiver × List (ℤ × ℤ × ℤ))
    (x : Joining) (hrun : Run.Reach (Run.observe (joinStep c) (hears c)) (fun _ _ => True)
      (.looking (Joining.start flags now), []) p) (hx : p.1.joining = some x) :
    Latest p.2 x.lateSlices := by
  have hnoted := hrun.invariant
    (I := fun p => ∀ x, p.1.joining = some x → x.lateSlices = noted p.2)
    (fun x hx => by
      obtain rfl := Option.some.inj hx
      rfl)
    (fun p t p' hp _ hs y hy => by
      obtain ⟨hstep, hheard⟩ := Run.observe_eq_some.mp hs
      obtain ⟨⟨r, sent⟩, hturn, hr⟩ := Option.map_eq_some_iff.mp hstep
      rw [hheard, hears]
      cases hp₁ : p.1 with
      | looking x =>
        rw [hp₁] at hturn hp
        rw [← hr] at hy
        rw [turn_lateSlices hturn hy, hp x rfl]
        cases t.heard c with
        | none => rw [Option.toList_none, List.append_nil, Option.elim_none]
        | some e => rw [Option.toList_some, noted_concat, Option.elim_some]
      | connected x =>
        rw [hp₁] at hturn
        cases hturn
      | listening x =>
        rw [hp₁] at hturn
        cases hturn
      | left =>
        rw [hp₁] at hturn
        cases hturn)
  rw [hnoted x hx]
  exact latest_noted p.2

def oneReceiver : JoinConfig := ⟨⟨0x0a000002, 9000⟩, ⟨0x0a0000ff, 9001⟩, 9001, 9000, 4096, 0⟩

/-- The REQACK of round 1 and a block of slice 0 arrive from the port of the sender. -/
def hearsTwice : List Turn :=
  [⟨0, [⟨⟨0x0a000001, 9001⟩, 16, (Reqack.mk 0 10 1).pack⟩], 0⟩,
    ⟨0, [⟨⟨0x0a000001, 9001⟩, 17, (DataBlock.mk 0 0 10).pack ++ [7]⟩], 0⟩]

theorem lateSlices_latest_twoPackets : ∃ x : Joining, x.lateSlices = [(0, 10, 1)] ∧
    Latest [(0, 10, 1), (0, 10, 0)] x.lateSlices := by
  have hexec : (Run.exec (Run.observe (joinStep oneReceiver) (hears oneReceiver)) (fun _ _ => True)
      (.looking (Joining.start 0 0), []) hearsTwice).map
        (fun p => decide (p.1.joining.map Joining.lateSlices = some [(0, 10, 1)] ∧
          p.2 = [(0, 10, 1), (0, 10, 0)])) = some true := by
    decide +kernel
  obtain ⟨p, hrun, hp⟩ := Run.exists_reach_of_exec hexec
  obtain ⟨hlate, hheard⟩ := of_decide_eq_true hp
  obtain ⟨x, hx, hlate⟩ := Option.map_eq_some_iff.mp hlate
  have hlatest := lateSlices_latest oneReceiver 0 0 p x hrun hx
  rw [hheard] at hlatest
  exact ⟨x, hlate, hlatest⟩

end Udpcast.Negotiate
