import Udpcast.SendData.Table

/-!
# The rounds of a slice

Only the next round of a slice changes its `rxmit_id`, which is one more then.
-/

namespace Udpcast.SendData

open Sender

theorem checkI32_eq_some {n m : ℤ} (h : checkI32 n = some m) : m = n ∧ n < 2 ^ 31 := by
  rw [checkI32] at h
  split at h
  · rename_i hlt
    exact ⟨(Option.some.inj h).symm, hlt⟩
  · cases h

section Rounds

variable {x x' : Sender} {i : Fin 8}

theorem rxmitId_modify {f : Slice → Slice} (hf : (f (x.slices i)).rxmitId = (x.slices i).rxmitId)
    (j : Fin 8) : ((x.modify i f).slices j).rxmitId = (x.slices j).rxmitId := by
  by_cases hji : j = i
  · subst hji
    rw [modify_slices_self, hf]
  · rw [modify_slices_of_ne _ _ _ hji]

theorem rxmitId_ready (s : Slice) (cl : ℕ) : (s.ready cl).rxmitId = s.rxmitId := by
  unfold Slice.ready
  dsimp only
  split
  · split
    · rfl
    · rfl
  · split
    · rfl
    · rfl

theorem rxmitId_missing (s : Slice) (cl : ℕ) (map : Bitmap) :
    (s.missing cl map).rxmitId = s.rxmitId := by
  unfold Slice.missing
  dsimp only
  split
  · rfl
  · rfl

theorem rxmitId_forget (s : Slice) (cl : ℕ) : (s.forget cl).rxmitId = s.rxmitId := by
  unfold Slice.forget
  dsimp only
  split
  · split
    · rfl
    · rfl
  · split
    · rfl
    · rfl

theorem rxmitId_handleMessage (x : Sender) (m : IncomingMsg) (j : Fin 8) :
    ((handleMessage x m).slices j).rxmitId = (x.slices j).rxmitId := by
  cases m with
  | ok s cl =>
    rw [handleMessage, emit_slices]
    split
    · exact rxmitId_modify (rxmitId_ready _ cl) j
    · rfl
  | retransmit s cl map rxmit =>
    rw [handleMessage]
    split
    · exact rxmitId_modify (rxmitId_missing _ cl map) j
    · rfl
  | disconnect cl => exact rxmitId_forget _ cl

theorem rxmitId_released (x : Sender) (i j : Fin 8) (c : NetConfig) (q : Produconsum) :
    ((released x i c q).slices j).rxmitId = (x.slices j).rxmitId := by
  by_cases hji : j = i
  · subst hji
    rw [released_slices_self]
  · rw [released_slices_of_ne _ _ _ hji]

theorem rxmitId_ackSlice (h : ackSlice x i = some x') (j : Fin 8) :
    (x'.slices j).rxmitId = (x.slices j).rxmitId := by
  rw [ackSlice] at h
  split at h
  · obtain rfl := Option.some.inj h
    rfl
  · obtain ⟨config, -, h⟩ := Option.bind_eq_some_iff.mp h
    obtain ⟨q, -, h⟩ := Option.bind_eq_some_iff.mp h
    obtain rfl := Option.some.inj h
    rw [emit_slices]
    exact rxmitId_modify rfl j

theorem rxmitId_sendReqack (h : sendReqack x i = some x') (j : Fin 8) :
    (x'.slices j).rxmitId = (x.slices j).rxmitId := by
  rw [sendReqack] at h
  split at h
  · exact rxmitId_ackSlice h j
  · obtain rfl := Option.some.inj h
    rw [send_slices]
    exact rxmitId_modify rfl j

theorem rxmitId_freeAcked (x : Sender) (i j : Fin 8) :
    ((freeAcked x i).slices j).rxmitId = (x.slices j).rxmitId := by
  rw [freeAcked]
  split
  · exact rxmitId_modify rfl j
  · rfl

theorem rxmitId_nextRound (h : nextRound x i = some x') :
    (x'.slices i).rxmitId = (x.slices i).rxmitId + 1 ∧ (x'.slices i).rxmitId < 2 ^ 31 := by
  obtain ⟨n, hn, h⟩ := Option.bind_eq_some_iff.mp h
  obtain ⟨rfl, hlt⟩ := checkI32_eq_some hn
  rw [rxmitId_sendReqack h, modify_slices_self]
  exact ⟨rfl, hlt⟩

end Rounds

end Udpcast.SendData
