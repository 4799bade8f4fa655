import MulticastMesh.Json.Reader
import MulticastMesh.Json.Writer
/-!
# Reading back what was written

The reader takes a written value from the front of a text and leaves what follows.  A number ends
where no digit, point or exponent follows, and each array or object uses up one level of nesting.
-/

namespace MulticastMesh

/-- A decimal that is written as an integer and has a value. -/
structure Decimal.IsInteger (d : Decimal) : Prop where
  integral : d.integral = true
  exponent : d.exponent = 0
  signed : d.negative = true → d.mantissa ≠ 0
  mantissa_lt : d.mantissa < UInt64.size

namespace Json

/-! ## Values that can be read back -/

mutual

/-- Whether a value can be written and read back where so many levels of arrays and objects are
left. -/
def Fits : (room : Nat) → Json → Prop
  | _, null => True
  | _, bool _ => True
  | _, number d => d.IsInteger
  | _, string _ => True
  | room, array items => 0 < room ∧ ItemsFit (room - 1) items
  | room, object fields => 0 < room ∧ FieldsFit (room - 1) fields
  | _, unsupported => False

def ItemsFit : (room : Nat) → List Json → Prop
  | _, [] => True
  | room, item :: items => Fits room item ∧ ItemsFit room items

def FieldsFit : (room : Nat) → List (String × Json) → Prop
  | _, [] => True
  | room, (_, value) :: fields => Fits room value ∧ FieldsFit room fields

end

variable {fuel room n : Nat} {c : Char} {cs rest : List Char} {d : Decimal} {j : Json}

theorem itemsFit_iff {items : List Json} : ItemsFit room items ↔ ∀ j ∈ items, j.Fits room := by
  induction items with
  | nil => simp [ItemsFit]
  | cons item items ih => simp [ItemsFit, ih]

theorem fieldsFit_iff {fields : List (String × Json)} :
    FieldsFit room fields ↔ ∀ field ∈ fields, field.2.Fits room := by
  induction fields with
  | nil => simp [FieldsFit]
  | cons field fields ih => simp [FieldsFit, ih]

/-! ## Characters between the parts -/

/-- What can follow a number without becoming a part of it. -/
def EndsNumber (rest : List Char) : Prop :=
  ∀ c ∈ rest.head?, c.isDigit = false ∧ c ≠ '.' ∧ c ≠ 'e' ∧ c ≠ 'E'

theorem endsNumber_nil : EndsNumber [] := by simp [EndsNumber]

theorem endsNumber_cons (h : c = ',' ∨ c = ']' ∨ c = '\x7d') : EndsNumber (c :: rest) := by
  rcases h with rfl | rfl | rfl <;> simp [EndsNumber]

@[simp] theorem skipSpace_cons (h : isSpace c = false) : skipSpace (c :: rest) = c :: rest := by
  simp [skipSpace, h]

/-! ## Numbers -/

theorem valueOf_toDigits (n : Nat) : valueOf (Nat.toDigits 10 n) = n := by
  have h := Nat.ofDigitChars_toDigits (b := 10) (n := n) (by decide) (by decide)
  simpa only [valueOf, Nat.ofDigitChars, Nat.mul_comm 10] using h

theorem isDigit_of_mem_digits (h : c ∈ Nat.toDigits 10 n) : c.isDigit = true :=
  Nat.isDigit_of_mem_toDigits (by decide) (by decide) h

theorem digitsOf_append (h : ∀ c ∈ cs, c.isDigit = true) (hrest : EndsNumber rest) :
    digitsOf (cs ++ rest) = (cs, rest) := by
  have hhead : ∀ c ∈ rest.head?, c.isDigit = false := fun c hc => (hrest c hc).1
  unfold digitsOf
  rw [List.takeWhile_append_of_pos h, List.dropWhile_append_of_pos h]
  cases rest with
  | nil => simp
  | cons c rest => simp [hhead c rfl]

theorem head?_toDigits (hn : 0 < n) : (Nat.toDigits 10 n).head? ≠ some '0' := by
  induction n using Nat.strongRecOn with
  | ind n ih =>
      by_cases hlt : n < 10
      · have hall : ∀ k < 10, 0 < k → [Nat.digitChar k].head? ≠ some '0' := by decide
        rw [Nat.toDigits_of_lt_base hlt]
        exact hall n hlt hn
      · have hrest := ih (n / 10) (by omega) (by omega)
        obtain ⟨c, cs, hdigits⟩ := List.exists_cons_of_ne_nil (Nat.toDigits_ne_nil (n := n / 10)
          (b := 10))
        rw [hdigits] at hrest
        rw [Nat.toDigits_of_base_le (by decide) (by omega), hdigits]
        exact hrest

theorem readInteger_digits (hrest : EndsNumber rest) :
    readInteger (Nat.toDigits 10 n ++ rest) = some (Nat.toDigits 10 n, rest) := by
  unfold readInteger
  rw [digitsOf_append (fun c hc => isDigit_of_mem_digits hc) hrest]
  split
  · next h => exact absurd (congrArg Prod.fst h) Nat.toDigits_ne_nil
  · next h =>
      -- more than one digit and the first one a zero
      have hdigits := congrArg Prod.fst h
      simp only at hdigits
      by_cases hn : n = 0
      · subst hn
        simp at hdigits
      · exact absurd (by rw [hdigits]; rfl) (head?_toDigits (Nat.pos_of_ne_zero hn))
  · next h => rw [← h]

theorem readFraction_none (hrest : EndsNumber rest) : readFraction rest = some ([], rest) := by
  cases rest with
  | nil => rfl
  | cons c rest =>
      have hc := (hrest c rfl).2.1
      unfold readFraction
      split
      · next h => exact absurd (List.cons.inj h).1 hc
      · rfl

theorem readExponent_none (hrest : EndsNumber rest) : readExponent rest = some (none, rest) := by
  cases rest with
  | nil => rfl
  | cons c rest =>
      obtain ⟨-, -, he, hE⟩ := hrest c rfl
      unfold readExponent
      split
      · next h => exact absurd (List.cons.inj h).1 he
      · next h => exact absurd (List.cons.inj h).1 hE
      · rfl

theorem readUnsigned_digits (h : d.IsInteger) (hrest : EndsNumber rest) :
    readUnsigned d.negative (Nat.toDigits 10 d.mantissa ++ rest) = some (.number d, rest) := by
  obtain ⟨negative, mantissa, exponent, integral⟩ := d
  obtain ⟨rfl, rfl, hsigned, hlt⟩ := h
  have hsign : (negative && mantissa == 0) = false := by
    cases negative with
    | false => rfl
    | true => simpa using hsigned rfl
  unfold readUnsigned
  rw [readInteger_digits hrest]
  simp only [Option.bind_eq_bind, Option.bind_some, readFraction_none hrest,
    readExponent_none hrest, List.append_nil, valueOf_toDigits]
  simp [hsign, Decimal.inRange, hlt]

/-! ## Strings -/

theorem hexDigit?_digitChar : ∀ k < 16, hexDigit? (Nat.digitChar k) = some k := by decide

theorem readUnicode_control (h : c.toNat < 0x20) :
    readUnicode ('0' :: '0' :: Nat.digitChar (c.toNat / 16) :: Nat.digitChar (c.toNat % 16) ::
      rest) = some (some c, rest) := by
  have hvalue : c.toNat / 16 * 16 + c.toNat % 16 = c.toNat := Nat.div_add_mod' _ _
  have hzero : hexDigit? '0' = some 0 := rfl
  have hsmall : c.toNat < 0xD800 := by omega
  unfold readUnicode readUnit
  simp [hzero, hexDigit?_digitChar (c.toNat / 16) (by omega),
    hexDigit?_digitChar (c.toNat % 16) (by omega), hvalue, hsmall]

theorem readString_escapedChar (sofar : List (Option Char)) :
    readString (fuel + 1) sofar (escapedChar c ++ rest) =
      readString fuel (some c :: sofar) rest := by
  unfold escapedChar
  split
  · simp [readString, readEscape]
  · simp [readString, readEscape]
  · simp [readString, readEscape]
  · simp [readString, readEscape]
  · simp [readString, readEscape]
  · simp [readString, readEscape]
  · simp [readString, readEscape]
  · next hquote hbackslash _ _ _ _ _ =>
      split
      · next hcontrol => simp [readString, readEscape, readUnicode_control hcontrol]
      · next hcontrol =>
          rw [List.cons_append, List.nil_append, readString, if_neg hquote, if_neg hbackslash,
            if_neg hcontrol]

theorem readString_escaped (sofar : List (Option Char)) (hfuel : cs.length < fuel) :
    readString fuel sofar (cs.flatMap escapedChar ++ '"' :: rest) =
      some (((sofar.reverse ++ cs.map some).mapM id).map String.ofList, rest) := by
  induction cs generalizing fuel sofar with
  | nil =>
      obtain ⟨fuel, rfl⟩ := Nat.exists_eq_add_of_lt hfuel
      simp [readString]
  | cons c cs ih =>
      obtain ⟨fuel, rfl⟩ : ∃ n, fuel = n + 1 := ⟨fuel - 1, by rw [List.length_cons] at hfuel; omega⟩
      rw [List.flatMap_cons, List.append_assoc, readString_escapedChar,
        ih (some c :: sofar) (by simpa using hfuel)]
      simp

theorem mapM_some (cs : List Char) : cs.mapM some = some cs := by
  induction cs with
  | nil => rfl
  | cons c cs ih => simp [ih]

theorem length_le_flatMap_escapedChar (cs : List Char) :
    cs.length ≤ (cs.flatMap escapedChar).length := by
  induction cs with
  | nil => simp
  | cons c cs ih =>
      have hpos : 0 < (escapedChar c).length := by
        unfold escapedChar
        split <;> simp
        split <;> simp
      simp only [List.flatMap_cons, List.length_append, List.length_cons]
      omega

theorem readString_stringText (s : String) (rest : List Char) :
    ∃ body, stringText s ++ rest = '"' :: body ∧
      readString (body.length + 1) [] body = some (some s, rest) := by
  refine ⟨s.toList.flatMap escapedChar ++ '"' :: rest, by simp [stringText], ?_⟩
  have hlength := length_le_flatMap_escapedChar s.toList
  rw [readString_escaped [] (by rw [List.length_append]; omega)]
  simp [mapM_some]

/-! ## Values -/

theorem isSpace_of_isDigit (h : c.isDigit = true) : isSpace c = false := by
  unfold isSpace
  simp only [Bool.or_eq_false_iff, beq_eq_false_iff_ne]
  refine ⟨⟨⟨?_, ?_⟩, ?_⟩, ?_⟩ <;> rintro rfl <;> revert h <;> decide

/-- The text of a value starts with none of the characters that end an array or stand between the
parts of a value. -/
theorem exists_chars_eq_cons (j : Json) :
    ∃ c cs, j.chars = c :: cs ∧ isSpace c = false ∧ c ≠ ']' := by
  cases j with
  | null => exact ⟨_, _, by simp only [chars]; rfl, by decide, by decide⟩
  | bool b => cases b <;> exact ⟨_, _, by simp only [chars]; rfl, by decide, by decide⟩
  | number d =>
      obtain ⟨c, cs, hdigits⟩ := List.exists_cons_of_ne_nil (Nat.toDigits_ne_nil (n := d.mantissa)
        (b := 10))
      simp only [chars, numberText, hdigits]
      cases d.negative with
      | true => exact ⟨'-', _, rfl, by decide, by decide⟩
      | false =>
          have hc : c.isDigit = true := isDigit_of_mem_digits (n := d.mantissa) (by simp [hdigits])
          refine ⟨c, _, rfl, isSpace_of_isDigit hc, ?_⟩
          rintro rfl
          revert hc
          decide
  | string s => exact ⟨'"', _, by simp only [chars, stringText]; rfl, by decide, by decide⟩
  | array items => exact ⟨'[', _, by simp only [chars]; rfl, by decide, by decide⟩
  | object fields => exact ⟨'\x7b', _, by simp only [chars]; rfl, by decide, by decide⟩
  | unsupported => exact ⟨_, _, by simp only [chars]; rfl, by decide, by decide⟩

theorem exists_itemChars_eq_cons (item : Json) (items : List Json) :
    ∃ c cs, itemChars (item :: items) = c :: cs ∧ isSpace c = false ∧ c ≠ ']' := by
  obtain ⟨c, cs, hchars, hspace, hne⟩ := exists_chars_eq_cons item
  cases items with
  | nil => exact ⟨c, cs, by rw [itemChars, hchars], hspace, hne⟩
  | cons next items =>
      exact ⟨c, _, by rw [itemChars, hchars, List.cons_append], hspace, hne⟩

theorem exists_fieldChars_eq_cons (name : String) (value : Json) (fields : List (String × Json)) :
    ∃ cs, fieldChars ((name, value) :: fields) = '"' :: cs := by
  cases fields with
  | nil => exact ⟨_, by rw [fieldChars, stringText]; rfl⟩
  | cons field fields => exact ⟨_, by rw [fieldChars, stringText]; rfl⟩

theorem readValue_digit (hc : c.isDigit = true) :
    readValue (fuel + 1) room (c :: rest) = readUnsigned false (c :: rest) := by
  unfold readValue
  rw [skipSpace_cons (isSpace_of_isDigit hc)]
  split
  all_goals first
    | rfl
    | next h =>
        -- the other first characters are no digits
        rw [(List.cons.inj h).1] at hc
        exact absurd hc (by decide)

theorem readValue_number (h : d.IsInteger) (hrest : EndsNumber rest) :
    readValue (fuel + 1) room (numberText d ++ rest) = some (.number d, rest) := by
  have hread := readUnsigned_digits h hrest
  have htext : numberText d =
      (if d.negative then ['-'] else []) ++ Nat.toDigits 10 d.mantissa := by
    simp [numberText, h.integral]
  rw [htext]
  cases hnegative : d.negative with
  | true =>
      rw [hnegative] at hread
      simp only [if_true, List.cons_append, List.nil_append]
      unfold readValue
      rw [skipSpace_cons (by decide)]
      exact hread
  | false =>
      rw [hnegative] at hread
      obtain ⟨c, cs, hdigits⟩ := List.exists_cons_of_ne_nil (Nat.toDigits_ne_nil (n := d.mantissa)
        (b := 10))
      have hc : c.isDigit = true := isDigit_of_mem_digits (n := d.mantissa) (by simp [hdigits])
      rw [hdigits] at hread
      simp only [hdigits, Bool.false_eq_true, if_false, List.nil_append, List.cons_append]
      rw [readValue_digit hc]
      exact hread

theorem ofNamed_map_some (fields : List (String × Json)) :
    ofNamed (fields.map fun field => (some field.1, field.2)) = .object fields := by
  have h : (fields.map fun field => (some field.1, field.2)).mapM
      (fun field => field.1.map (·, field.2)) = some fields := by
    induction fields with
    | nil => rfl
    | cons field fields ih => simp [ih]
  unfold ofNamed
  rw [h]

theorem within_of_pos (h : 0 < room) : within room j = j := by
  unfold within
  rw [if_neg (Nat.ne_of_gt h)]

theorem readValue_items {items : List Json} (hspace : skipSpace cs = cs)
    (hopen : ∀ tail, cs ≠ ']' :: tail)
    (hitems : readItems fuel (room - 1) cs = some (items, rest)) :
    readValue (fuel + 1) room ('[' :: cs) = some (within room (.array items), rest) := by
  unfold readValue
  rw [skipSpace_cons (by decide)]
  simp [hspace, hitems]

theorem readValue_fields {fields : List (Option String × Json)} (hspace : skipSpace cs = cs)
    (hopen : ∀ tail, cs ≠ '\x7d' :: tail)
    (hfields : readFields fuel (room - 1) cs = some (fields, rest)) :
    readValue (fuel + 1) room ('\x7b' :: cs) = some (within room (ofNamed fields), rest) := by
  unfold readValue
  rw [skipSpace_cons (by decide)]
  simp [hspace, hfields]

mutual

theorem readValue_chars : (j : Json) → {room : Nat} → (fuel : Nat) → (rest : List Char) →
    j.Fits room → 2 * j.chars.length ≤ fuel → EndsNumber rest →
    readValue fuel room (j.chars ++ rest) = some (j, rest)
  | null, _, fuel + 1, _, _, _, _ => by
      simp [chars, readValue, skipSpace, isSpace]
  | bool true, _, fuel + 1, _, _, _, _ => by
      simp [chars, readValue, skipSpace, isSpace]
  | bool false, _, fuel + 1, _, _, _, _ => by
      simp [chars, readValue, skipSpace, isSpace]
  | number d, _, fuel + 1, _, h, _, hrest => by
      rw [chars]
      rw [Fits] at h
      exact readValue_number h hrest
  | string s, _, fuel + 1, rest, _, _, _ => by
      obtain ⟨body, hbody, hread⟩ := readString_stringText s rest
      rw [chars, hbody]
      unfold readValue
      rw [skipSpace_cons (by decide)]
      simp [hread]
  | array [], room, fuel + 1, rest, h, _, _ => by
      rw [Fits] at h
      simp [chars, itemChars, readValue, skipSpace, isSpace, within_of_pos h.1]
  | array (item :: items), room, fuel + 1, rest, h, hfuel, _ => by
      rw [Fits] at h
      rw [chars] at hfuel ⊢
      simp only [List.length_cons, List.length_append] at hfuel
      have hitems := readItems_chars item items fuel rest h.2 (by omega)
      obtain ⟨c, cs, hchars, hspace, hne⟩ := exists_itemChars_eq_cons item items
      rw [← within_of_pos (j := .array (item :: items)) h.1]
      simp only [List.cons_append, List.append_assoc, List.nil_append]
      rw [hchars, List.cons_append] at hitems ⊢
      refine readValue_items (skipSpace_cons hspace) (fun tail heq => ?_) hitems
      exact hne (List.cons.inj heq).1
  | object [], room, fuel + 1, rest, h, _, _ => by
      rw [Fits] at h
      simp [chars, fieldChars, readValue, skipSpace, isSpace, within_of_pos h.1]
  | object ((name, value) :: fields), room, fuel + 1, rest, h, hfuel, _ => by
      rw [Fits] at h
      rw [chars] at hfuel ⊢
      simp only [List.length_cons, List.length_append] at hfuel
      have hfields := readFields_chars name value fields fuel rest h.2 (by omega)
      obtain ⟨cs, hchars⟩ := exists_fieldChars_eq_cons name value fields
      rw [← within_of_pos (j := .object ((name, value) :: fields)) h.1,
        ← ofNamed_map_some ((name, value) :: fields)]
      simp only [List.cons_append, List.append_assoc, List.nil_append]
      rw [hchars, List.cons_append] at hfields ⊢
      refine readValue_fields (skipSpace_cons (by decide)) (fun tail heq => ?_) hfields
      exact absurd (List.cons.inj heq).1 (by decide)
  | j, _, 0, _, _, hfuel, _ => by
      obtain ⟨c, cs, hchars, _⟩ := exists_chars_eq_cons j
      rw [hchars] at hfuel
      simp at hfuel

theorem readItems_chars : (item : Json) → (items : List Json) → {room : Nat} →
    (fuel : Nat) → (rest : List Char) → ItemsFit room (item :: items) →
    2 * (itemChars (item :: items)).length < fuel →
    readItems fuel room (itemChars (item :: items) ++ ']' :: rest) = some (item :: items, rest)
  | item, [], room, fuel + 1, rest, h, hfuel => by
      rw [ItemsFit] at h
      rw [itemChars] at hfuel ⊢
      have hitem := readValue_chars item fuel (']' :: rest) h.1 (by omega)
        (endsNumber_cons (by decide))
      unfold readItems
      rw [hitem]
      simp [isSpace]
  | item, next :: items, room, fuel + 1, rest, h, hfuel => by
      rw [ItemsFit] at h
      rw [itemChars] at hfuel ⊢
      simp only [List.length_cons, List.length_append] at hfuel
      have hitem := readValue_chars item fuel
        (',' :: (itemChars (next :: items) ++ ']' :: rest)) h.1 (by omega)
        (endsNumber_cons (by decide))
      have hitems := readItems_chars next items fuel rest h.2 (by omega)
      rw [List.append_assoc, List.cons_append]
      unfold readItems
      rw [hitem]
      simp [isSpace, hitems]

theorem readFields_chars : (name : String) → (value : Json) → (fields : List (String × Json)) →
    {room : Nat} → (fuel : Nat) → (rest : List Char) → FieldsFit room ((name, value) :: fields) →
    2 * (fieldChars ((name, value) :: fields)).length < fuel →
    readFields fuel room (fieldChars ((name, value) :: fields) ++ '\x7d' :: rest) =
      some (((name, value) :: fields).map fun field => (some field.1, field.2), rest)
  | name, value, [], room, fuel + 1, rest, h, hfuel => by
      rw [FieldsFit] at h
      rw [fieldChars] at hfuel ⊢
      simp only [List.length_cons, List.length_append] at hfuel
      have hvalue := readValue_chars value fuel ('\x7d' :: rest) h.1 (by omega)
        (endsNumber_cons (by decide))
      obtain ⟨body, hbody, hname⟩ :=
        readString_stringText name (':' :: (value.chars ++ '\x7d' :: rest))
      rw [List.append_assoc, List.cons_append, hbody]
      unfold readFields
      simp [isSpace, hname, hvalue]
  | name, value, (name', value') :: fields, room, fuel + 1, rest, h, hfuel => by
      rw [FieldsFit] at h
      rw [fieldChars] at hfuel ⊢
      simp only [List.length_cons, List.length_append] at hfuel
      have hvalue := readValue_chars value fuel
        (',' :: (fieldChars ((name', value') :: fields) ++ '\x7d' :: rest)) h.1 (by omega)
        (endsNumber_cons (by decide))
      have hfields := readFields_chars name' value' fields fuel rest h.2 (by omega)
      obtain ⟨body, hbody, hname⟩ := readString_stringText name (':' :: (value.chars ++
        ',' :: (fieldChars ((name', value') :: fields) ++ '\x7d' :: rest)))
      simp only [List.append_assoc, List.cons_append, hbody]
      unfold readFields
      simp [isSpace, hname, hvalue, hfields]

end

theorem ofText?_text (h : j.Fits maxNesting) : ofText? j.text = some j := by
  have hread := readValue_chars j (2 * j.chars.length + 2) [] h (by omega) endsNumber_nil
  rw [List.append_nil] at hread
  unfold ofText? ofChars? text
  rw [String.toList_ofList, hread]
  rfl

end Json

end MulticastMesh
