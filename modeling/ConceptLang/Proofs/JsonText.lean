import Mathlib.Data.List.Forall2
import Mathlib.Data.List.TakeDrop
import ConceptLang.Json.Printer
import ConceptLang.Json.Reader

/-!
# Reading what was written

A value whose texts are strings and whose numbers are made of digits alone is
read back from its text as it was (`Json.parse?_render`). Each part of the
reader takes from the front of a list of characters what the matching part of
the writer put there, and leaves the rest, as long as the rest does not go on
with the number that was read last.
-/

namespace ConceptLang

namespace Json

variable {rest : List Char}

/-! ### Numbers -/

/-- What may follow a value: nothing, or one of the marks that end an item or a
field. -/
def Stops (rest : List Char) : Prop :=
  ∀ c ∈ rest.head?, c = ',' ∨ c = ']' ∨ c = '\x7d'

theorem Stops.span_isDigit (hrest : Stops rest) {digits : List Char}
    (hdigits : ∀ c ∈ digits, c.isDigit = true) :
    (digits ++ rest).span Char.isDigit = (digits, rest) := by
  rw [List.span_eq_takeWhile_dropWhile, List.takeWhile_append_of_pos hdigits,
    List.dropWhile_append_of_pos hdigits]
  cases rest with
  | nil => simp
  | cons c rest =>
      have hc : c.isDigit = false := by
        rcases hrest c rfl with rfl | rfl | rfl <;> decide
      simp [hc]

/-- Only zero is written with a leading zero. -/
theorem head_toDigits_ne_zero {n : Nat} (hn : 0 < n) :
    ∃ c cs, Nat.toDigits 10 n = c :: cs ∧ c ≠ '0' := by
  induction n using Nat.strongRecOn with
  | ind n ih =>
      by_cases hsmall : n < 10
      · have hchar : ∀ d < 10, 0 < d → Nat.digitChar d ≠ '0' := by decide
        exact ⟨Nat.digitChar n, [], Nat.toDigits_of_lt_base hsmall,
          hchar n hsmall hn⟩
      · obtain ⟨c, cs, h, hc⟩ := ih (n / 10) (by omega) (by omega)
        refine ⟨c, cs ++ [Nat.digitChar (n % 10)], ?_, hc⟩
        rw [Nat.toDigits_of_base_le (by decide) (by omega), h, List.cons_append]

theorem isDigit_toDigits (n : Nat) :
    ∀ c ∈ Nat.toDigits 10 n, c.isDigit = true :=
  fun _ hc => Nat.isDigit_of_mem_toDigits (by decide) (by decide) hc

theorem exists_toDigits_eq_cons (n : Nat) :
    ∃ c cs, Nat.toDigits 10 n = c :: cs ∧ c.isDigit = true := by
  have hdigits := isDigit_toDigits n
  cases h : Nat.toDigits 10 n with
  | nil => exact absurd h Nat.toDigits_ne_nil
  | cons c cs => exact ⟨c, cs, rfl, hdigits c (by simp [h])⟩

theorem readWhole_toDigits (n : Nat) (hrest : Stops rest) :
    readWhole (Nat.toDigits 10 n ++ rest) = some (Nat.toDigits 10 n, rest) := by
  rw [readWhole, readDigits, hrest.span_isDigit (isDigit_toDigits n)]
  by_cases hn : 0 < n
  · obtain ⟨c, cs, h, hc⟩ := head_toDigits_ne_zero hn
    rw [h]
    dsimp only
    split
    · next heq => simp_all
    · rfl
  · obtain rfl : n = 0 := by omega
    rfl

theorem readNumber_toDigits (n : Nat) (hrest : Stops rest) :
    readNumber (Nat.toDigits 10 n ++ rest) = some (.natural n, rest) := by
  have hwhole := readWhole_toDigits n hrest
  have hvalue : natOfDigits 0 (Nat.toDigits 10 n) = n :=
    Nat.ofDigitChars_toDigits (by decide) (by decide)
  have hfraction : readFraction rest = some ([], rest) := by
    cases rest with
    | nil => rfl
    | cons c rest => rcases hrest c rfl with rfl | rfl | rfl <;> rfl
  have hexponent : readExponent rest = some (none, rest) := by
    cases rest with
    | nil => rfl
    | cons c rest => rcases hrest c rfl with rfl | rfl | rfl <;> rfl
  have hsign : readNumber (Nat.toDigits 10 n ++ rest) =
      readUnsigned false (Nat.toDigits 10 n ++ rest) := by
    obtain ⟨c, cs, h, hc⟩ := exists_toDigits_eq_cons n
    rw [h, List.cons_append, readNumber]
    rintro _ ⟨⟩
    cases hc
  rw [hsign, readUnsigned, hwhole]
  simp [hfraction, hexponent, hvalue]

/-! ### Texts -/

/-- A part of a written text stands for one character: for itself, or as the
number of a control character. -/
inductive Piece.For (c : Char) : Piece → Prop where
  | char : Piece.For c (.char c)
  | unit (h : c.toNat < 32) : Piece.For c (.unit c.toNat)

theorem readPieces_short {c d : Char} (hd : shortEscape? d = some c)
    (cs : List Char) :
    readPieces ('\\' :: d :: cs) =
      (readPieces cs).map fun (pieces, rest) => (.char c :: pieces, rest) := by
  rw [readPieces, hd]
  · cases readPieces cs <;> rfl
  · rintro _ _ _ _ _ rfl
    cases hd

theorem hexValues?_digitChar : ∀ n < 32,
    hexValues? '0' '0' (Nat.digitChar (n / 16)) (Nat.digitChar (n % 16)) =
      some n := by
  decide

theorem readPieces_unit {n : Nat} (hn : n < 32) (cs : List Char) :
    readPieces
        ('\\' :: 'u' :: '0' :: '0' :: Nat.digitChar (n / 16) ::
          Nat.digitChar (n % 16) :: cs) =
      (readPieces cs).map fun (pieces, rest) => (.unit n :: pieces, rest) := by
  rw [readPieces, hexValues?_digitChar n hn]
  cases readPieces cs <;> rfl

theorem readPieces_char {c : Char} (hquote : c ≠ '"') (hslash : c ≠ '\\')
    (hc : ¬ c.toNat < 32) (cs : List Char) :
    readPieces (c :: cs) =
      (readPieces cs).map fun (pieces, rest) => (.char c :: pieces, rest) := by
  rw [readPieces, if_neg hc]
  · cases readPieces cs <;> rfl
  · exact hquote
  · rintro _ _ _ _ _ rfl
    exact absurd rfl hslash
  · rintro _ _ rfl
    exact absurd rfl hslash

/-- The reader takes one character just as the writer puts it. -/
theorem readPieces_escape (c : Char) (cs : List Char) :
    ∃ piece : Piece, piece.For c ∧ readPieces (escape c ++ cs) =
      (readPieces cs).map fun (pieces, rest) => (piece :: pieces, rest) := by
  have hshort (d : Char) (hd : shortEscape? d = some c) :
      ∃ piece : Piece, piece.For c ∧ readPieces (['\\', d] ++ cs) =
        (readPieces cs).map fun (pieces, rest) => (piece :: pieces, rest) :=
    ⟨.char c, .char, readPieces_short hd cs⟩
  unfold escape
  split_ifs with hquote hslash hb hf hn hr ht hsmall
  · exact hshort '"' (by rw [hquote]; rfl)
  · exact hshort '\\' (by rw [hslash]; rfl)
  · exact hshort 'b' (by rw [hb]; rfl)
  · exact hshort 'f' (by rw [hf]; rfl)
  · exact hshort 'n' (by rw [hn]; rfl)
  · exact hshort 'r' (by rw [hr]; rfl)
  · exact hshort 't' (by rw [ht]; rfl)
  · exact ⟨.unit c.toNat, .unit hsmall, readPieces_unit hsmall cs⟩
  · exact ⟨.char c, .char, readPieces_char hquote hslash hsmall cs⟩

theorem readPieces_flatMap (cs rest : List Char) :
    ∃ pieces, List.Forall₂ Piece.For cs pieces ∧
      readPieces (cs.flatMap escape ++ '"' :: rest) = some (pieces, rest) := by
  induction cs with
  | nil => exact ⟨[], .nil, rfl⟩
  | cons c cs ih =>
      obtain ⟨pieces, hfor, hread⟩ := ih
      obtain ⟨piece, hpiece, hescape⟩ :=
        readPieces_escape c (cs.flatMap escape ++ '"' :: rest)
      refine ⟨piece :: pieces, .cons hpiece hfor, ?_⟩
      rw [List.flatMap_cons, List.append_assoc, hescape, hread, Option.map_some]

/-- A control character is no half of a surrogate pair, whatever comes after
it. -/
theorem assemble_unit {n : Nat} (hn : n < 32) (pieces : List Piece) :
    assemble (.unit n :: pieces) =
      (assemble pieces).map (Char.ofNat n :: ·) := by
  have hlead : isLead n = false := by
    simp [isLead]
    omega
  have htrail : isTrail n = false := by
    simp [isTrail]
    omega
  cases pieces with
  | nil => simp [assemble, hlead, htrail]
  | cons piece pieces => cases piece <;> simp [assemble, hlead, htrail]

theorem assemble_of_for {cs : List Char} {pieces : List Piece}
    (h : List.Forall₂ Piece.For cs pieces) : assemble pieces = some cs := by
  induction h with
  | nil => rfl
  | cons hpiece _ ih =>
      cases hpiece with
      | char => rw [assemble, ih, Option.map_some]
      | unit hsmall =>
          rw [assemble_unit hsmall, ih, Option.map_some, Char.ofNat_toNat]

theorem readText_flatMap (s : String) (rest : List Char) :
    readText (s.toList.flatMap escape ++ '"' :: rest) =
      some (some s, rest) := by
  obtain ⟨pieces, hfor, hread⟩ := readPieces_flatMap s.toList rest
  simp [readText, hread, assemble_of_for hfor]

/-! ### Values -/

/-- The values that are read back as they were: their texts are strings, and
their numbers are made of digits alone. -/
inductive Plain : Json → Prop where
  | null : Plain .null
  | bool (b : Bool) : Plain (.bool b)
  | natural (n : Nat) : Plain (.natural n)
  | string (s : String) : Plain (.string (some s))
  | array {items : List Json} (h : ∀ item ∈ items, Plain item) :
      Plain (.array items)
  | object {fields : List (Option String × Json)}
      (hkeys : ∀ field ∈ fields, field.1.isSome = true)
      (h : ∀ field ∈ fields, Plain field.2) : Plain (.object fields)

theorem skipBlanks_cons {c : Char} (hc : isBlank c = false) (cs : List Char) :
    skipBlanks (c :: cs) = c :: cs := by
  simp [skipBlanks, hc]

theorem isBlank_of_isDigit {c : Char} (hc : c.isDigit = true) :
    isBlank c = false := by
  by_contra hblank
  simp only [isBlank, Bool.not_eq_false, Bool.or_eq_true, beq_iff_eq] at hblank
  rcases hblank with ((rfl | rfl) | rfl) | rfl <;> cases hc

/-- A value starts neither with a blank nor with a closing bracket. -/
theorem Plain.chars_eq_cons {json : Json} (h : json.Plain) :
    ∃ c cs, json.chars = c :: cs ∧ isBlank c = false ∧ c ≠ ']' := by
  cases h with
  | null => exact ⟨'n', ['u', 'l', 'l'], rfl, rfl, by decide⟩
  | bool b =>
      cases b with
      | true => exact ⟨'t', ['r', 'u', 'e'], rfl, rfl, by decide⟩
      | false => exact ⟨'f', ['a', 'l', 's', 'e'], rfl, rfl, by decide⟩
  | natural n =>
      obtain ⟨c, cs, hdigits, hc⟩ := exists_toDigits_eq_cons n
      refine ⟨c, cs, by rw [chars, hdigits], isBlank_of_isDigit hc, ?_⟩
      rintro rfl
      cases hc
  | string s => exact ⟨'"', _, by rw [chars, textChars]; rfl, rfl, by decide⟩
  | array _ => exact ⟨'[', _, by rw [chars]; rfl, rfl, by decide⟩
  | object _ _ => exact ⟨'\x7b', _, by rw [chars]; rfl, rfl, by decide⟩

theorem readValue_toDigits (n steps : Nat) (hrest : Stops rest) :
    readValue (steps + 1) (Nat.toDigits 10 n ++ rest) =
      some (.natural n, rest) := by
  obtain ⟨c, cs, h, hc⟩ := exists_toDigits_eq_cons n
  have hnumber := readNumber_toDigits n hrest
  rw [h, List.cons_append] at hnumber ⊢
  rw [readValue, skipBlanks_cons (isBlank_of_isDigit hc)]
  split
  case h_7 => exact hnumber
  all_goals
    next heq =>
      obtain ⟨rfl, -⟩ := List.cons.inj heq
      cases hc

/-- A value is read back in front of anything that may follow it. -/
def ReadsBack (json : Json) : Prop :=
  ∀ steps rest, json.chars.length ≤ steps → Stops rest →
    readValue steps (json.chars ++ rest) = some (json, rest)

theorem readsBack_of_succ {json : Json} (hplain : json.Plain)
    (h : ∀ steps rest, json.chars.length ≤ steps + 1 → Stops rest →
      readValue (steps + 1) (json.chars ++ rest) = some (json, rest)) :
    json.ReadsBack := by
  intro steps rest hsteps hrest
  obtain ⟨c, cs, hcons, -⟩ := hplain.chars_eq_cons
  cases steps with
  | zero =>
      rw [hcons] at hsteps
      cases hsteps
  | succ steps => exact h steps rest hsteps hrest

theorem exists_itemChars_eq_cons {item : Json} (h : item.Plain)
    (items : List Json) :
    ∃ c cs, itemChars (item :: items) = c :: cs ∧ isBlank c = false ∧
      c ≠ ']' := by
  obtain ⟨c, cs, hcons, hc⟩ := h.chars_eq_cons
  cases items with
  | nil => exact ⟨c, cs, by rw [itemChars, hcons], hc⟩
  | cons next items =>
      exact ⟨c, _, by rw [itemChars, hcons, List.cons_append], hc⟩

theorem exists_fieldChars_eq_cons {field : Option String × Json}
    (h : field.1.isSome = true) (fields : List (Option String × Json)) :
    ∃ cs, fieldChars (field :: fields) = '"' :: cs := by
  obtain ⟨key, value⟩ := field
  obtain ⟨text, rfl⟩ := Option.isSome_iff_exists.mp h
  cases fields with
  | nil => exact ⟨_, rfl⟩
  | cons next fields => exact ⟨_, rfl⟩

theorem readItems_itemChars {items : List Json}
    (hread : ∀ item ∈ items, item.ReadsBack) (hne : items ≠ []) {steps : Nat}
    (hsteps : (itemChars items).length < steps) (rest : List Char) :
    readItems steps (itemChars items ++ ']' :: rest) = some (items, rest) := by
  induction items generalizing steps with
  | nil => exact absurd rfl hne
  | cons item items ih =>
      obtain ⟨steps, rfl⟩ : ∃ n, steps = n + 1 := ⟨steps - 1, by omega⟩
      cases items with
      | nil =>
          rw [itemChars] at hsteps ⊢
          rw [readItems,
            hread item (by simp) steps (']' :: rest) (by omega)
              (by simp [Stops])]
          rfl
      | cons next items =>
          rw [itemChars, List.length_append, List.length_cons] at hsteps
          rw [itemChars, List.append_assoc, List.cons_append, readItems,
            hread item (by simp) steps _ (by omega) (by simp [Stops])]
          have hrest :=
            ih (fun other hother => hread other (by simp [hother])) (by simp)
            (show (itemChars (next :: items)).length < steps by omega)
          simp [skipBlanks_cons (c := ',') rfl, hrest]

theorem readFields_fieldChars {fields : List (Option String × Json)}
    (hkeys : ∀ field ∈ fields, field.1.isSome = true)
    (hread : ∀ field ∈ fields, field.2.ReadsBack) (hne : fields ≠ [])
    {steps : Nat} (hsteps : (fieldChars fields).length < steps)
    (rest : List Char) :
    readFields steps (fieldChars fields ++ '\x7d' :: rest) =
      some (fields, rest) := by
  induction fields generalizing steps with
  | nil => exact absurd rfl hne
  | cons field fields ih =>
      obtain ⟨steps, rfl⟩ : ∃ n, steps = n + 1 := ⟨steps - 1, by omega⟩
      obtain ⟨key, value⟩ := field
      obtain ⟨text, rfl⟩ :=
        Option.isSome_iff_exists.mp (hkeys (key, value) (by simp))
      have hvalue : value.ReadsBack := hread (some text, value) (by simp)
      cases fields with
      | nil =>
          simp only [fieldChars, textChars, List.cons_append, List.append_assoc,
            List.nil_append, List.length_append, List.length_cons] at hsteps ⊢
          have hrest :=
            hvalue steps ('\x7d' :: rest) (by omega) (by simp [Stops])
          simp [readFields, skipBlanks_cons (c := '"') rfl,
            skipBlanks_cons (c := ':') rfl, skipBlanks_cons (c := '\x7d') rfl,
            readText_flatMap, hrest]
      | cons next fields =>
          simp only [fieldChars, textChars, List.cons_append, List.append_assoc,
            List.nil_append, List.length_append, List.length_cons] at hsteps ⊢
          have hfirst :=
            hvalue steps
              (',' :: (fieldChars (next :: fields) ++ '\x7d' :: rest))
            (by omega) (by simp [Stops])
          have hrest := ih (fun other hother => hkeys other (by simp [hother]))
            (fun other hother => hread other (by simp [hother])) (by simp)
            (show (fieldChars (next :: fields)).length < steps by omega)
          simp [readFields, skipBlanks_cons (c := '"') rfl,
            skipBlanks_cons (c := ':') rfl, skipBlanks_cons (c := ',') rfl,
            readText_flatMap, hfirst, hrest]

theorem readValue_array {c : Char} (hblank : isBlank c = false) (hc : c ≠ ']')
    (steps : Nat) (cs : List Char) :
    readValue (steps + 1) ('[' :: c :: cs) =
      (readItems steps (c :: cs)).map fun (items, rest) =>
        (.array items, rest) := by
  simp only [readValue, skipBlanks_cons (c := '[') rfl, skipBlanks_cons hblank]
  split
  · next heq => exact absurd (List.cons.inj heq).1 hc
  · rfl

theorem readValue_object (steps : Nat) (cs : List Char) :
    readValue (steps + 1) ('\x7b' :: '"' :: cs) =
      (readFields steps ('"' :: cs)).map fun (fields, rest) =>
        (.object fields, rest) := by
  simp only [readValue, skipBlanks_cons (c := '\x7b') rfl,
    skipBlanks_cons (c := '"') rfl]
  rfl

/-- Every plain value is read back: by induction over its items and fields,
which are written with fewer characters and so are read with fewer steps. -/
theorem Plain.readsBack {json : Json} (h : json.Plain) : json.ReadsBack := by
  induction h with
  | null => exact readsBack_of_succ (.null) fun _ _ _ _ => rfl
  | bool b =>
      refine readsBack_of_succ (.bool b) fun _ _ _ _ => ?_
      cases b <;> rfl
  | natural n =>
      refine readsBack_of_succ (.natural n) fun steps rest _ hrest => ?_
      rw [chars]
      exact readValue_toDigits n steps hrest
  | string s =>
      refine readsBack_of_succ (.string s) fun steps rest _ _ => ?_
      simp [chars, textChars, readValue, skipBlanks_cons (c := '"') rfl,
        readText_flatMap]
  | @array items h ih =>
      refine readsBack_of_succ (.array h) fun steps rest hsteps _ => ?_
      cases items with
      | nil => rfl
      | cons item items =>
          obtain ⟨c, cs, hcons, hblank, hc⟩ :=
            exists_itemChars_eq_cons (h item (by simp)) items
          have hlength : (itemChars (item :: items)).length < steps := by
            simp only [chars, List.cons_append, List.length_cons,
              List.length_append, List.length_nil] at hsteps
            omega
          have hread := readItems_itemChars ih (by simp) hlength rest
          rw [chars]
          rw [hcons] at hread ⊢
          simp only [List.cons_append, List.append_assoc, List.nil_append]
            at hread ⊢
          rw [readValue_array hblank hc, hread, Option.map_some]
  | @object fields hkeys h ih =>
      refine readsBack_of_succ (.object hkeys h) fun steps rest hsteps _ => ?_
      cases fields with
      | nil => rfl
      | cons field fields =>
          obtain ⟨cs, hcons⟩ :=
            exists_fieldChars_eq_cons (hkeys field (by simp)) fields
          have hlength : (fieldChars (field :: fields)).length < steps := by
            simp only [chars, List.cons_append, List.length_cons,
              List.length_append, List.length_nil] at hsteps
            omega
          have hread := readFields_fieldChars hkeys ih (by simp) hlength rest
          rw [chars]
          rw [hcons] at hread ⊢
          simp only [List.cons_append, List.append_assoc, List.nil_append]
            at hread ⊢
          rw [readValue_object, hread, Option.map_some]

/-- A plain value is what its text says. -/
theorem parse?_render {json : Json} (h : json.Plain) :
    parse? json.render = some json := by
  have hread :=
    h.readsBack (2 * json.chars.length + 2) [] (by omega) (by simp [Stops])
  rw [List.append_nil] at hread
  have hend : (skipBlanks []).isEmpty = true := rfl
  simp only [parse?, render, String.toList_ofList, hread, Option.bind_eq_bind,
    Option.bind_some, hend, if_true, Option.pure_def]

end Json

end ConceptLang
