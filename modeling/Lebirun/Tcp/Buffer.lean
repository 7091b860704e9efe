import Mathlib
import Lebirun.Tcp.Socket

namespace Lebirun.Tcp
set_option autoImplicit true

open Circular

section
variable {b : Circular UInt8}

/-- Growing the buffer keeps what is in it. -/
theorem makeRoom_spec (hb : b.Ok) (a : Bool) (len : Nat) :
    (makeRoom a b len).Ok ∧ (makeRoom a b len).toList = b.toList ∧
      (makeRoom a b len).used = b.used := by
  have hused : ∀ c : Circular UInt8, c.Ok → c.toList = b.toList →
      c.Ok ∧ c.toList = b.toList ∧ c.used = b.used := by
    intro c hc heq
    refine ⟨hc, heq, ?_⟩
    rw [← length_toList, ← length_toList, heq]
  rw [makeRoom]
  split
  · rename_i hlt
    rw [tcpGrowRecvBuffer]
    split
    · rename_i hzero
      split
      · apply hused
        · exact ⟨fun _ => by dsimp only; omega, fun _ => by dsimp only; omega, fun _ => rfl⟩
        · have h0 : b.toList = [] := by
            rw [← List.length_eq_zero_iff, length_toList]
            exact used_zero hzero
          rw [h0, ← List.length_eq_zero_iff, length_toList, used]
          dsimp only
          rw [if_neg (by omega), Nat.zero_add, Nat.sub_zero, Nat.mod_self]
      · exact ⟨hb, rfl, rfl⟩
    · rename_i hsize
      dsimp only
      split
      · exact ⟨hb, rfl, rfl⟩
      · rename_i hc
        have hgrow : b.size < doubleUntil (b.used + len + 1) (b.used + len + 1) b.size :=
          Nat.not_le.1 fun hle => hc (.inl hle)
        exact hused _ (relocate_ok hb _ hgrow hsize) (toList_relocate hb _ hgrow hsize)
  · exact ⟨hb, rfl, rfl⟩

end

/-- Bytes go in at the end, as many as fit. -/
theorem tcpRxAppend_spec {s : Socket} (hs : s.recvBuffer.Ok) (a : Bool) (data : List UInt8) :
    (tcpRxAppend a s data).1 ≤ data.length ∧
      (tcpRxAppend a s data).2.recvBuffer.Ok ∧
      (tcpRxAppend a s data).2.recvBuffer.toList =
        s.recvBuffer.toList ++ data.take (tcpRxAppend a s data).1 ∧
      (tcpRxAppend a s data).2.recvNext =
        s.recvNext + BitVec.ofNat 32 (tcpRxAppend a s data).1 := by
  obtain ⟨h1, h2, h3⟩ := makeRoom_spec hs a data.length
  have hle : roomFor (makeRoom a s.recvBuffer data.length).size s.recvBuffer.used data.length ≤
      data.length := Nat.min_le_right ..
  rw [tcpRxAppend]
  split
  · refine ⟨Nat.zero_le _, h1, ?_, ?_⟩
    · rw [h2, List.take_zero, List.append_nil]
    · exact (BitVec.add_zero _).symm
  · rename_i hn
    have hfit : (makeRoom a s.recvBuffer data.length).used + (data.take (roomFor
        (makeRoom a s.recvBuffer data.length).size s.recvBuffer.used data.length)).length <
        (makeRoom a s.recvBuffer data.length).size := by
      rw [List.length_take, h3, Nat.min_eq_left hle]
      rw [roomFor] at hn ⊢
      split at hn
      · rename_i hgt
        rw [if_pos hgt]
        omega
      · simp at hn
    refine ⟨hle, put_ok h1 hfit, ?_, rfl⟩
    rw [toList_put h1 hfit, h2]

theorem toList_nil {b : Circular UInt8} (h : b.used = 0) : b.toList = [] := by
  rw [← List.length_eq_zero_iff, length_toList, h]

theorem consume_spec {b : Circular UInt8} (hb : b.Ok) (hsize : b.size ≠ 0) (hn : n ≤ b.used) :
    (consume b n).Ok ∧ (consume b n).toList = b.toList.drop n := by
  have hskip := skip_ok (n := n) hb hsize
  have hlist := toList_skip hb hsize hn
  rw [consume]
  split
  · rename_i heq
    have h0 : (b.skip n).used = 0 := by
      rw [used_eq hskip hsize, if_pos heq.le, heq, Nat.sub_self]
    refine ⟨⟨fun h => absurd rfl h, fun h => absurd rfl h, fun _ => heq⟩, ?_⟩
    rw [← hlist, toList_nil h0, toList_nil (used_zero rfl)]
  · exact ⟨hskip, hlist⟩

end Lebirun.Tcp
