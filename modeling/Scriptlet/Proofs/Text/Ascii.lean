import Scriptlet.Value.Basic
import Scriptlet.Proofs.Token.Spelling

/-!
The bytes of what is printed. Every value prints as characters of one byte each, so counting
the characters of an output is counting its bytes, and cutting it after some characters is
cutting it after as many bytes.
-/
namespace Scriptlet

namespace Text

def bytes (s : String) : List UInt8 :=
  s.toUTF8.data.toList

/-- Every character of the text is a single byte. -/
def IsAscii (s : String) : Prop :=
  ∀ c ∈ s.toList, c.utf8Size = 1

instance (s : String) : Decidable (IsAscii s) :=
  List.decidableBAll (fun c : Char => c.utf8Size = 1) s.toList

theorem bytes_eq_flatMap (s : String) : bytes s = s.toList.flatMap String.utf8EncodeChar := by
  unfold bytes
  rw [String.toUTF8, ← String.utf8Encode_toList]
  exact List.toList_data_toByteArray

theorem IsAscii.append {s s' : String} (h : IsAscii s) (h' : IsAscii s') : IsAscii (s ++ s') := by
  intro c hc
  rw [String.toList_append, List.mem_append] at hc
  exact hc.elim (h c) (h' c)

/-- In ASCII every character is its own byte. -/
theorem IsAscii.bytes_eq {s : String} (h : IsAscii s) :
    bytes s = s.toList.map fun c => c.val.toUInt8 := by
  rw [bytes_eq_flatMap]
  unfold IsAscii at h
  generalize s.toList = cs at h ⊢
  induction cs with
  | nil => rfl
  | cons c cs ih =>
    have hc := String.utf8EncodeChar_eq_singleton (h c List.mem_cons_self)
    have hcs := ih fun d hd => h d (List.mem_cons_of_mem c hd)
    rw [List.flatMap_cons, hc, hcs, List.map_cons, List.singleton_append]

theorem IsAscii.length_bytes {s : String} (h : IsAscii s) : (bytes s).length = s.length := by
  rw [h.bytes_eq, List.length_map, String.length_toList]

theorem IsAscii.bytes_take {s : String} (h : IsAscii s) (k : Nat) :
    bytes (String.ofList (s.toList.take k)) = (bytes s).take k := by
  have htake : IsAscii (String.ofList (s.toList.take k)) := by
    intro c hc
    rw [String.toList_ofList] at hc
    exact h c (List.mem_of_mem_take hc)
  rw [htake.bytes_eq, h.bytes_eq, String.toList_ofList, List.map_take]

theorem utf8Size_of_isDigit {c : Char} (h : Lexeme.isDigit c = true) : c.utf8Size = 1 := by
  obtain ⟨_, hle⟩ := Lexeme.isDigit_iff.mp h
  rw [Char.utf8Size_eq_one_iff, UInt32.le_iff_toNat_le]
  change c.toNat ≤ 127
  omega

theorem isAscii_repr (n : Nat) : IsAscii n.repr :=
  fun _ hc => utf8Size_of_isDigit (Lexeme.isDigit_of_mem_repr hc)

theorem isAscii_integer (n : Int) : IsAscii n.repr := by
  intro c hc
  rcases Lexeme.mem_repr hc with rfl | hdigit
  · decide
  · exact utf8Size_of_isDigit hdigit

theorem isAscii_decimal (d : Decimal) : IsAscii d.text := by
  have hzeros : ∀ n, IsAscii (String.ofList (List.replicate n '0')) := by
    intro n c hc
    rw [String.toList_ofList] at hc
    rw [List.eq_of_mem_replicate hc]
    decide
  have hpoint : IsAscii "." := by decide
  exact (((isAscii_repr _).append hpoint).append (hzeros _)).append (isAscii_repr _)

theorem isAscii_real (x : Float) : IsAscii (Real.text x) := by
  have hsign : ∀ d, IsAscii (Real.sign d) := by
    intro d
    unfold Real.sign
    split <;> decide
  unfold Real.text
  split
  · split
    · exact ((hsign _).append (isAscii_repr _)).append (by decide)
    · exact (hsign _).append (isAscii_decimal _)
  · split
    · decide
    · split <;> decide

end Text

/-- A line that shows a value is ASCII. -/
theorem Value.isAscii_line (v : Value) : Text.IsAscii (v.text ++ "\n") := by
  refine Text.IsAscii.append ?_ (by decide)
  cases v with
  | integer n => exact Text.isAscii_integer n.toInt
  | real x => exact Text.isAscii_real x
  | truth b => cases b <;> decide

end Scriptlet
