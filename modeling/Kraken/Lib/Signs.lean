import Mathlib.Tactic
import Kraken.Lib.Bytes
import Kraken.Lib.Strconv
import Kraken.Lib.Strings

/-! Texts of digits, capital letters and the signs around them, which are quoted and trimmed as
they are, and quoted texts, which are trimmed as they are. -/

def Sign (b : UInt8) : Prop := 0x2B ≤ b.toNat ∧ b.toNat ≤ 0x5A

def Signs (s : Bytes) : Prop := ∀ b ∈ s, Sign b

instance (b : UInt8) : Decidable (Sign b) := by unfold Sign; infer_instance

theorem Sign.plain {b : UInt8} (sign : Sign b) : b.toNat < 0x80 ∧ Strings.IsSpace b.toNat = false := by
  obtain ⟨low,high⟩ := sign
  refine ⟨by omega,?_⟩
  generalize b.toNat = n at *
  interval_cases n <;> decide

namespace Signs

theorem append {s t : Bytes} (one : Signs s) (two : Signs t) : Signs (s ++ t) :=
  fun b member => (List.mem_append.mp member).elim (one b) (two b)

theorem cons {b : UInt8} {s : Bytes} (one : Sign b) (two : Signs s) : Signs (b::s) :=
  List.forall_mem_cons.mpr ⟨one,two⟩

theorem nil : Signs [] := fun _ member => absurd member List.not_mem_nil

theorem quoted {s : Bytes} (u : Utf8.Unicode) (signs : Signs s) :
    Strconv.Quote u s = Strconv.quote::s ++ [Strconv.quote] := by
  refine Strconv.quotePlain u fun b member => ?_
  obtain ⟨low,high⟩ := signs b member
  refine ⟨by omega,by omega,?_,?_⟩
  · rintro rfl
    exact absurd low (by decide)
  · rintro rfl
    exact absurd high (by decide)

theorem solid {s : Bytes} (signs : Signs s) : Strings.space ∉ s := fun member =>
  absurd (signs _ member).1 (by decide)

theorem calm {s : Bytes} (signs : Signs s) : Strconv.quote ∉ s := fun member =>
  absurd (signs _ member).1 (by decide)

theorem trimmed {s : Bytes} (signs : Signs s) (long : 2 ≤ s.length) :
    Strings.TrimSpace (Strings.space::s) = s := by
  cases s with
  | nil => contradiction
  | cons a t =>
    obtain ⟨m,b,rfl⟩ := (List.eq_nil_or_concat t).resolve_left (by rintro rfl; simp at long)
    obtain ⟨small,calm⟩ := (signs a List.mem_cons_self).plain
    obtain ⟨small',calm'⟩ := (signs b (by simp)).plain
    have both := Strings.trimBoth small small' calm calm' m 0
    rw [List.concat_eq_append]
    rwa [List.replicate_zero,List.append_nil] at both

end Signs

namespace Strconv
open Strings (TrimSpace space)

theorem quoteShape (u : Utf8.Unicode) (s : Bytes) : Quote u s = quote::body u s.length s ++ [quote] := rfl

theorem trimQuote (u : Utf8.Unicode) (s : Bytes) : TrimSpace (Quote u s) = Quote u s :=
  Strings.trimNone (by decide) (by decide) (by decide) (by decide) _

theorem trimQuoteSpace (u : Utf8.Unicode) (s : Bytes) : TrimSpace (space::Quote u s) = Quote u s := by
  have trimmed := Strings.trimBoth (a := quote) (b := quote) (by decide) (by decide) (by decide)
    (by decide) (body u s.length s) 0
  rwa [List.replicate_zero,List.append_nil] at trimmed

theorem quoteSolid (u : Utf8.Unicode) {s : Bytes} (solid : space ∉ s) : space ∉ Quote u s := by
  intro member
  simp only [quoteShape,List.cons_append,List.mem_cons,List.mem_append,List.not_mem_nil,
    or_false] at member
  rcases member with bad | inside | bad
  · exact absurd bad (by decide)
  · rcases bodyBytes u _ s _ inside with above | within
    · exact absurd above (by decide)
    · exact solid within.2
  · exact absurd bad (by decide)

end Strconv
