/-
SplitsSubgraph/Lib/Text.lean

Delimited text.  A composite key is written as a list of parts joined by one
separator character, and read back by splitting at that character.  Both
operations are the standard ones; what is developed here is when they are
inverse to each other:

    splitChar c (joinChar c parts) = parts      (parts non-empty, none contains c)
    joinChar c (splitChar c s)     = s          (always)

so that joining is injective on separator-free parts (`joinChar_inj`), and
joining in two stages is joining once (`joinChar_flatten`).  The second half of the
file shows that the two renderings used for parts, the hexadecimal text of a
byte string and the decimal text of an integer, are injective and avoid every
separator that is not one of their own characters.
-/
import Mathlib

namespace DelimitedText

/-! ### Joining and splitting -/

/-- Join the parts with the one-character separator `c`. -/
def joinChar (c : Char) (parts : List String) : String :=
  (String.singleton c).intercalate parts

/-- Split at every occurrence of `c`; splitting the empty string gives the
one-element list of the empty string. -/
def splitChar (c : Char) (s : String) : List String :=
  (s.toList.splitOn c).map String.ofList

theorem toList_joinChar (c : Char) (parts : List String) :
    (joinChar c parts).toList = [c].intercalate (parts.map String.toList) := by
  simp [joinChar]

/-- Splitting undoes joining, provided no part contains the separator. -/
theorem splitChar_joinChar {c : Char} {parts : List String}
    (hne : parts ≠ []) (hc : ∀ p ∈ parts, c ∉ p.toList) :
    splitChar c (joinChar c parts) = parts := by
  have hsplit : ([c].intercalate (parts.map String.toList)).splitOn c
      = parts.map String.toList := by
    refine List.splitOn_intercalate c ?_ (by simpa using hne)
    intro l hl
    obtain ⟨p, hp, rfl⟩ := List.mem_map.mp hl
    exact hc p hp
  rw [splitChar, toList_joinChar, hsplit, List.map_map]
  simp [Function.comp_def]

/-- Joining undoes splitting, with no hypothesis. -/
theorem joinChar_splitChar (c : Char) (s : String) :
    joinChar c (splitChar c s) = s := by
  apply String.toList_injective
  rw [toList_joinChar, splitChar, List.map_map]
  simp [Function.comp_def, List.intercalate_splitOn]

/-- Joining is injective on non-empty lists of separator-free parts, of any two
lengths. -/
theorem joinChar_inj {c : Char} {ps qs : List String}
    (hp : ps ≠ []) (hq : qs ≠ [])
    (hpc : ∀ p ∈ ps, c ∉ p.toList) (hqc : ∀ q ∈ qs, c ∉ q.toList)
    (h : joinChar c ps = joinChar c qs) : ps = qs := by
  rw [← splitChar_joinChar hp hpc, h, splitChar_joinChar hq hqc]

/-- Parts that are joins of non-empty groups of parts may be joined in one stage. -/
theorem joinChar_flatten (c : Char) {groups : List (List String)} (hne : ∀ g ∈ groups, g ≠ []) :
    joinChar c (groups.map (joinChar c)) = joinChar c groups.flatten := by
  induction groups with
  | nil => rfl
  | cons g groups ih =>
    have hg := hne g List.mem_cons_self
    have ih' := ih fun g' hg' => hne g' (List.mem_cons_of_mem _ hg')
    rcases groups with - | ⟨g', groups⟩
    · simp [joinChar]
    · have hrest : (g' :: groups).flatten ≠ [] := by
        simp [hne g' (by simp)]
      have hflat : (g :: g' :: groups).flatten = g ++ (g' :: groups).flatten := List.flatten_cons
      unfold joinChar at ih' ⊢
      rw [List.map_cons, String.intercalate_cons_of_ne_nil (by simp), ih', hflat,
        String.intercalate_append_of_ne_nil hg hrest]

/-! ### Hexadecimal text -/

/-- The two lower-case digits of a byte. -/
def hexByte (b : UInt8) : List Char :=
  [Nat.digitChar (b.toNat / 16), Nat.digitChar (b.toNat % 16)]

/-- The hexadecimal text of a byte string, two digits a byte. -/
def hexEncode (bytes : List UInt8) : String :=
  String.ofList (bytes.flatMap hexByte)

theorem digitChar_injOn {m n : ℕ} (hm : m < 16) (hn : n < 16)
    (h : Nat.digitChar m = Nat.digitChar n) : m = n := by
  have table : ∀ i j : Fin 16, Nat.digitChar i = Nat.digitChar j → i = j := by decide
  exact congrArg Fin.val (table ⟨m, hm⟩ ⟨n, hn⟩ h)

theorem hexByte_injective : Function.Injective hexByte := by
  intro a b h
  have ha := a.toNat_lt
  have hb := b.toNat_lt
  simp only [hexByte, List.cons.injEq, and_true] at h
  have hhi := digitChar_injOn (by omega) (by omega) h.1
  have hlo := digitChar_injOn (by omega) (by omega) h.2
  apply UInt8.toNat_inj.mp
  omega

theorem flatMap_hexByte_injective :
    Function.Injective (fun bytes : List UInt8 => bytes.flatMap hexByte) := by
  intro xs ys h
  induction xs generalizing ys with
  | nil =>
    cases ys with
    | nil => rfl
    | cons y ys => simp [hexByte] at h
  | cons x xs ih =>
    cases ys with
    | nil => simp [hexByte] at h
    | cons y ys =>
      simp only [List.flatMap_cons] at h
      -- every byte contributes exactly two characters, so the texts split evenly
      obtain ⟨hhead, htail⟩ := List.append_inj h (by simp [hexByte])
      rw [hexByte_injective hhead, ih htail]

theorem hexEncode_injective : Function.Injective hexEncode := by
  intro xs ys h
  exact flatMap_hexByte_injective (String.ofList_injective h)

/-- A hexadecimal text contains none but the sixteen digits. -/
theorem notMem_hexEncode {c : Char} (hc : ∀ n < 16, c ≠ Nat.digitChar n)
    (bytes : List UInt8) : c ∉ (hexEncode bytes).toList := by
  simp only [hexEncode, String.toList_ofList, List.mem_flatMap, not_exists, not_and]
  intro b _ hb
  have hlt := b.toNat_lt
  simp only [hexByte, List.mem_cons, List.not_mem_nil, or_false] at hb
  rcases hb with hb | hb
  · exact hc _ (by omega) hb
  · exact hc _ (by omega) hb

/-! ### Decimal text -/

/-- The decimal text of an integer contains only digits and a leading minus. -/
theorem notMem_repr {c : Char} (hd : c.isDigit = false) (hm : c ≠ '-') (n : ℤ) :
    c ∉ n.repr.toList := by
  have hnat : ∀ k : ℕ, c ∉ k.repr.toList := by
    intro k hk
    have hdig : c.isDigit = true := by
      have hk' : c ∈ Nat.toDigits 10 k := by simpa [Nat.repr] using hk
      exact Nat.isDigit_of_mem_toDigits (by decide) (by decide) hk'
    simp [hd] at hdig
  cases n with
  | ofNat k => exact hnat k
  | negSucc k => simpa [Int.repr, hm] using hnat (k + 1)

end DelimitedText
