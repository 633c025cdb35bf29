import Emproto.Delivery
import Emproto.ReadBounds

/-! Which parsers keep to the frame they are given, where frames of formatted messages lie one
behind the other. -/

namespace Emproto

section Tokens
variable {m : Mem} {c fin : Nat} {ts : List Token}

end Tokens

theorem ReadsInside.mono {α : Type} {run : Option (α × Trace)} {lo hi lo' hi' : Nat}
    (h : ReadsInside run lo' hi') (low : lo ≤ lo') (high : hi' ≤ hi) : ReadsInside run lo hi := by
  obtain ⟨r, t, hrun, reads⟩ := h
  refine ⟨r, t, hrun, fun a ha => ?_⟩
  have := reads a ha
  omega

theorem ReadsInside.bind_pure {α β : Type} {c : Code α} {m : Mem} {lo hi : Nat}
    (h : ReadsInside (c.run m) lo hi) (g : α → β) :
    ReadsInside ((c >>= fun a => pure (g a)).run m) lo hi := by
  obtain ⟨a, t, hrun, reads⟩ := h
  refine ⟨g a, t ++ [], ?_, by rwa [List.append_nil]⟩
  rw [Code.run_bind_of m hrun]
  rfl

theorem ReadsInside.behind {α : Type} {run : Option (α × Trace)} {b k n : Nat} {size : UInt32}
    (h : ReadsInside run (b + k) (b + k + (size - UInt32.ofNat k).toNat))
    (hsize : size.toNat = k + n) : ReadsInside run b (b + size.toNat) := by
  have body := size_behind hsize
  exact h.mono (Nat.le_add_right b k) (by omega)

section Bodies
variable {host : ByteOrder} {m : Mem} {p : Nat} {size : UInt32}

end Bodies

open Outputs

namespace Message

end Message

section Frames
variable {host : ByteOrder} {m : Mem} {b : Nat} {size : UInt32} {bs : List UInt8}

namespace Message
variable {before : Mem} {q : Nat} {msg : Message} {p : PublicParser}

end Message

end Frames

end Emproto
