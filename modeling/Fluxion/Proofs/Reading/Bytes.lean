import Mathlib.Data.List.DropRight
import Fluxion.Reader
import Fluxion.Proofs.Text.Utf8

namespace Fluxion

theorem Excerpt.around_append_length (front shown : List Char) (width : Nat) :
    Excerpt.around (front ++ shown) (front.length + 1) width =
      ⟨String.ofList (front.rtake (min front.length width)),
        String.ofList (shown.take width)⟩ := by
  have hsame : front.length - width = front.length - min front.length width := by omega
  simp [Excerpt.around, List.rtake, hsame]

namespace Reader

open Utf8

variable {bytes rest : List UInt8} {front : List Char}

theorem readBytes_encode (r : Reader) (text : String) :
    r.readBytes (encode text.toList) = r.read text := by
  rw [readBytes, decode?_eq_some_iff.mpr rfl, read]

theorem readBytes_of_not_text (r : Reader) (hfront : Front bytes front rest)
    (hnone : ¬∃ text : String, bytes = encode text.toList) :
    r.readBytes bytes =
      .error
        (Fault.within ⟨.notText, front.length + 1⟩ (front ++ decodeLossy rest) r.width) := by
  have hdecode : decode? bytes = none := by
    rw [Option.eq_none_iff_forall_ne_some]
    intro source hsource
    refine hnone ⟨String.ofList source, ?_⟩
    rw [String.toList_ofList, decode?_eq_some_iff.mp hsource]
  have hshown : decodeLossy bytes = front ++ decodeLossy rest := by
    rw [hfront.split, decodeLossy_encode_append]
  rw [readBytes, hdecode, hfront.soundLength_eq, hshown]

/-- The bytes of a text are read as the text. Any others are refused behind the longest text they
start with: the excerpt has the last characters of that text, and the first ones that the bytes
behind it show, of which the very first is U+FFFD. -/
theorem readBytes_text_or_refused (r : Reader) (bytes : List UInt8) :
    ∃ front rest shown,
      (∀ text behind, Front bytes text behind ↔ text = front ∧ behind = rest) ∧
      (∀ text, Mended rest text ↔ text = shown) ∧
      (∀ text : String, bytes = encode text.toList → r.readBytes bytes = r.read text) ∧
      ((¬∃ text : String, bytes = encode text.toList) →
        let before := String.ofList (front.rtake (min front.length r.width))
        let after := String.ofList (shown.take r.width)
        r.readBytes bytes = .error ⟨⟨.notText, front.length + 1⟩, ⟨before, after⟩⟩ ∧
          (1 ≤ r.width → ∃ more, after = String.ofList ('\uFFFD' :: more))) := by
  obtain ⟨front, rest, hfront⟩ := exists_front bytes
  refine ⟨front, rest, decodeLossy rest, fun text behind => ⟨fun h => h.unique hfront, ?_⟩,
    fun text => mended_iff, ?_, fun hnone => ⟨?_, fun hwidth => ?_⟩⟩
  · rintro ⟨rfl, rfl⟩
    exact hfront
  · rintro text rfl
    exact r.readBytes_encode text
  · rw [r.readBytes_of_not_text hfront hnone, Fault.within, Excerpt.around_append_length]
  · have hrest : rest ≠ [] := by
      rintro rfl
      exact hnone ⟨String.ofList front,
        by rw [String.toList_ofList, hfront.split, List.append_nil]⟩
    obtain ⟨more, hmore⟩ := hfront.shown_eq_cons hrest (mended_iff.mpr rfl)
    obtain ⟨width, hwidth⟩ := Nat.exists_eq_add_of_le' hwidth
    exact ⟨more.take width, by rw [hmore, hwidth, List.take_succ_cons]⟩

/-- A character of four bytes is broken off after two, a parenthesis stands between,
and a surrogate is no character. -/
example :
    (⟨.signFirst, 3, none⟩ : Reader).readBytes
      [0x28, 0x2B, 0x20, 0xC3, 0xA9, 0xF0, 0x9F, 0x28, 0xED, 0xA0] =
      .error ⟨⟨.notText, 5⟩, ⟨"+ é", "\uFFFD(\uFFFD"⟩⟩ := by rfl

end Reader
end Fluxion
