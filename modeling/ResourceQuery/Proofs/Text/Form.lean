import ResourceQuery.Proofs.Text.Octets
import ResourceQuery.Proofs.Text.Pieces
import ResourceQuery.Text.Form
/-!
# Form encoding and back

Pairs that are written as a query string are read of it again (`parse_print`). An encoded text has
none of the signs that divide a query string, as they are escaped; and each octet is read of what it
is encoded as, whatever comes behind it.
-/

namespace ResourceQuery.Text

theorem toNat_charOfNat {n : Nat} (h : n < 256) : (Char.ofNat n).toNat = n := by
  have hvalid : n.isValidChar := Or.inl (by omega)
  rw [Char.ofNat, dif_pos hvalid]
  exact BitVec.toNat_ofNatLT n _

theorem toOctets_cons {c : Char} (h : c.toNat < 128) (rest : List Char) :
    toOctets (c :: rest) = UInt8.ofNat c.toNat :: toOctets rest := by
  have hone : String.utf8EncodeChar c = [UInt8.ofNat c.toNat] := by
    rw [String.utf8EncodeChar]
    exact if_pos (Nat.le_of_lt_succ h)
  rw [toOctets, List.flatMap_cons, hone]
  rfl

namespace Form

/-! ## Digits -/

variable {n : Nat}

theorem capitalDigit_lt (h : n < 16) : (capitalDigit n).toNat < 128 := by
  interval_cases n <;> decide

theorem octetValue?_capitalDigit (h : n < 16) :
    octetValue? (UInt8.ofNat (capitalDigit n).toNat) = some n := by
  interval_cases n <;> rfl

theorem isPlain_capitalDigit (h : n < 16) :
    isPlain (UInt8.ofNat (capitalDigit n).toNat) = true := by
  interval_cases n <;> rfl

/-! ## Octets -/

variable {b : UInt8}

theorem lt_of_isPlain (h : isPlain b = true) : b.toNat < 128 := by
  simp only [isPlain, Bool.or_eq_true, Bool.and_eq_true, decide_eq_true_eq, beq_iff_eq,
    UInt8.le_iff_toNat_le, ← UInt8.toNat_inj, UInt8.reduceToNat] at h
  omega

/-- An octet that stands for itself is none of the signs with a meaning of their own. -/
theorem unescape_of_isPlain (h : isPlain b = true) (rest : List UInt8) :
    unescape (b :: rest) = b :: unescape rest := by
  have hplus : b ≠ 0x2B := by
    rintro rfl
    exact absurd h (by decide)
  have hpercent : b ≠ 0x25 := by
    rintro rfl
    exact absurd h (by decide)
  rw [unescape.eq_def]
  simp only [if_neg hplus, if_neg hpercent]

theorem unescape_plus (rest : List UInt8) : unescape (0x2B :: rest) = 0x20 :: unescape rest := by
  rw [unescape.eq_def]
  exact if_pos rfl

theorem unescape_escape {high low : UInt8} {h l : Nat} (hhigh : octetValue? high = some h)
    (hlow : octetValue? low = some l) (rest : List UInt8) :
    unescape (0x25 :: high :: low :: rest) = UInt8.ofNat (16 * h + l) :: unescape rest := by
  rw [unescape, if_neg (by decide), if_pos rfl]
  simp only [hhigh, hlow]

theorem unescape_encodeOctet (b : UInt8) (rest : List Char) :
    unescape (toOctets (encodeOctet b ++ rest)) = b :: unescape (toOctets rest) := by
  have hb : b.toNat < 256 := b.toNat_lt
  unfold encodeOctet
  split
  · rename_i hplain
    have hsmall := lt_of_isPlain hplain
    have hchar : (Char.ofNat b.toNat).toNat = b.toNat := toNat_charOfNat hb
    rw [List.singleton_append, toOctets_cons (by omega), hchar, UInt8.ofNat_toNat,
      unescape_of_isPlain hplain]
  · split
    · rename_i hblank
      have hplus : UInt8.ofNat '+'.toNat = 0x2B := rfl
      rw [List.singleton_append, toOctets_cons (by decide), hblank, hplus, unescape_plus]
    · have hhigh : b.toNat / 16 < 16 := by omega
      have hlow : b.toNat % 16 < 16 := by omega
      have hvalue : 16 * (b.toNat / 16) + b.toNat % 16 = b.toNat := by omega
      simp only [List.cons_append, List.nil_append]
      rw [toOctets_cons (by decide), toOctets_cons (capitalDigit_lt hhigh),
        toOctets_cons (capitalDigit_lt hlow)]
      calc
        _ = UInt8.ofNat (16 * (b.toNat / 16) + b.toNat % 16) :: unescape (toOctets rest) :=
          unescape_escape (octetValue?_capitalDigit hhigh) (octetValue?_capitalDigit hlow) _
        _ = _ := by rw [hvalue, UInt8.ofNat_toNat]

/-! ## Texts -/

/-- A text is read of its encoded form. -/
theorem decode_encode (text : List Char) : decode (encode text) = text := by
  have hunescape : ∀ octets, unescape (toOctets (octets.flatMap encodeOctet)) = octets := by
    intro octets
    induction octets with
    | nil => rfl
    | cons b rest ih => rw [List.flatMap_cons, unescape_encodeOctet, ih]
  rw [decode, encode, hunescape, ofOctets_toOctets]

/-- A sign that is neither plain nor one that encoding writes does not stand in encoded texts. -/
theorem not_mem_encode {sign : Char} (hsmall : sign.toNat < 128)
    (hsign : isPlain (UInt8.ofNat sign.toNat) = false) (hplus : sign ≠ '+') (hpercent : sign ≠ '%')
    (text : List Char) : sign ∉ encode text := by
  intro hmem
  obtain ⟨b, -, hb⟩ := List.mem_flatMap.1 hmem
  have hlt : b.toNat < 256 := b.toNat_lt
  have hdigit : ∀ n < 16, sign ≠ capitalDigit n := by
    rintro n hn rfl
    rw [isPlain_capitalDigit hn] at hsign
    cases hsign
  unfold encodeOctet at hb
  split at hb
  · rename_i hplain
    obtain rfl := List.mem_singleton.1 hb
    rw [toNat_charOfNat hlt, UInt8.ofNat_toNat, hplain] at hsign
    cases hsign
  · split at hb
    · exact hplus (List.mem_singleton.1 hb)
    · rcases List.mem_cons.1 hb with heq | hb
      · exact hpercent heq
      · rcases List.mem_cons.1 hb with heq | hb
        · exact hdigit _ (by omega) heq
        · exact hdigit _ (by omega) (List.mem_singleton.1 hb)

theorem ampersand_not_mem_encode (text : List Char) : '&' ∉ encode text :=
  not_mem_encode (by decide) (by decide) (by decide) (by decide) text

theorem equals_not_mem_encode (text : List Char) : '=' ∉ encode text :=
  not_mem_encode (by decide) (by decide) (by decide) (by decide) text

theorem question_not_mem_encode (text : List Char) : '?' ∉ encode text :=
  not_mem_encode (by decide) (by decide) (by decide) (by decide) text

/-! ## Pairs -/

/-- The piece of a query string that a pair is written as. -/
def piece (pair : List Char × List Char) : List Char := encode pair.1 ++ '=' :: encode pair.2

theorem print_eq (pairs : List (List Char × List Char)) :
    print pairs = joinChars '&' (pairs.map piece) :=
  rfl

theorem ampersand_not_mem_piece (pair : List Char × List Char) : '&' ∉ piece pair := by
  rw [piece, List.mem_append, List.mem_cons]
  rintro (hname | hequals | hvalue)
  · exact ampersand_not_mem_encode _ hname
  · exact absurd hequals (by decide)
  · exact ampersand_not_mem_encode _ hvalue

theorem splitFirst_piece (pair : List Char × List Char) :
    splitFirst '=' (piece pair) = some (encode pair.1, encode pair.2) :=
  splitFirst_append _ (equals_not_mem_encode _)

/-- The pieces of a query string that was written are the written pairs, empty ones too. -/
theorem filter_split_print (pairs : List (List Char × List Char)) :
    ((split '&' (print pairs)).filter fun piece => !piece.isEmpty) = pairs.map piece := by
  cases pairs with
  | nil => rfl
  | cons first rest =>
      rw [print_eq, split_joinChars (by simp), List.filter_eq_self]
      · intro text htext
        obtain ⟨pair, -, rfl⟩ := List.mem_map.1 htext
        simp [piece]
      · intro text htext
        obtain ⟨pair, -, rfl⟩ := List.mem_map.1 htext
        exact ampersand_not_mem_piece pair

/-- Pairs are read of the query string that they are written as. -/
theorem parse_print (pairs : List (List Char × List Char)) : parse (print pairs) = pairs := by
  rw [parse, filter_split_print, List.map_map]
  calc
    _ = pairs.map id := by
      apply List.map_congr_left
      intro pair _
      simp only [Function.comp, splitFirst_piece, decode_encode, id]
    _ = pairs := List.map_id pairs

/-- A query string that was written does not start with a question mark, which reading would leave
out. -/
theorem head?_print_ne (pairs : List (List Char × List Char)) :
    (print pairs).head? ≠ some '?' := by
  have hpiece : ∀ pair rest, (piece pair ++ rest).head? ≠ some '?' := by
    intro pair rest
    have hname := question_not_mem_encode pair.1
    cases hencoded : encode pair.1 with
    | nil => simp [piece, hencoded]
    | cons c chars =>
        rw [hencoded, List.mem_cons, not_or] at hname
        simpa [piece, hencoded] using Ne.symm hname.1
  cases pairs with
  | nil => simp [print, joinChars]
  | cons first rest =>
      cases rest with
      | nil => simpa [print_eq, joinChars] using hpiece first []
      | cons second rest => exact hpiece first _

end Form

end ResourceQuery.Text
