import Mathlib.Data.List.TakeDrop
import Stackless.Json.Reader
import Stackless.Json.Writer

/-!
# Reading what was written

A value without numbers other than integers is **plain**.  The text of a plain value is read back
as that value:

* `literal_writeText` — a string is read from its literal, whatever its characters;
* `number_write` — an integer is read from its digits, if nothing that could go on with a number
  follows;
* `value_write` — so by induction on values, items and fields, a value is read from its text,
  whatever follows, with as much fuel as the text has characters;
* `read_toText` — a plain value is read from its text.
-/

namespace Stackless.Json

section Strings

/-- A piece stands for a character. -/
def Piece.Stands (piece : Piece) (c : Char) : Prop :=
  ∀ ps, join (piece :: ps) = (join ps).map (c :: ·)

/-- A code unit below the surrogates stands for its character. -/
theorem stands_unit {u : Nat} (h : u < 0xD800) : (Piece.unit u).Stands (Char.ofNat u) := by
  have hhigh : isHighSurrogate u = false := by
    rw [isHighSurrogate, Bool.and_eq_false_iff]
    exact .inl (decide_eq_false (by omega))
  have hlow : isLowSurrogate u = false := by
    rw [isLowSurrogate, Bool.and_eq_false_iff]
    exact .inl (decide_eq_false (by omega))
  intro ps
  match ps with
  | [] => simp [join, hhigh, hlow]
  | .char c :: rest => simp [join, hhigh, hlow]
  | .unit l :: rest => simp [join, hhigh, hlow]

/-- The escape of a control character is the code unit of the character. -/
theorem codeUnit?_hexDigit : ∀ n, n < 0x20 →
    codeUnit? '0' '0' (hexDigit (n / 16)) (hexDigit (n % 16)) = some n := by
  decide

/-- A one-letter escape is read as a character. -/
theorem pieces_short {e c : Char} (h : shortEscape? e = some c) (rest : List Char) :
    pieces ('\\' :: e :: rest) = (pieces rest).map fun out => (.char c :: out.1, out.2) := by
  rw [pieces.eq_def]
  split
  · cases ‹_ = []›
  · cases ‹_ = _›
  · cases ‹_ = _›
    cases h
  · rename_i heq
    cases heq
    rw [h]
    cases pieces rest with
    | none | some => rfl
  · rename_i hshort heq
    cases heq
    exact (hshort e rest rfl rfl).elim

/-- **A character is read from its escape**, as a piece that stands for it. -/
theorem exists_piece (c : Char) : ∃ piece : Piece, piece.Stands c ∧
    ∀ rest, pieces (escape c ++ rest) = (pieces rest).map fun out => (piece :: out.1, out.2) := by
  unfold escape
  split
  iterate 7
    · exact ⟨_, fun _ => rfl, pieces_short rfl⟩
  · rename_i hquote hbackslash _ _ _ _ _
    split
    · rename_i hcontrol
      refine ⟨.unit c.toNat, ?_, fun rest => ?_⟩
      · have hstands := stands_unit (u := c.toNat) (by omega)
        rwa [Char.ofNat_toNat] at hstands
      · show pieces ('\\' :: 'u' :: '0' :: '0' :: _ :: _ :: rest) = _
        rw [pieces, codeUnit?_hexDigit _ hcontrol]
        cases pieces rest with
        | none | some => rfl
    · rename_i hcontrol
      refine ⟨.char c, fun _ => rfl, fun rest => ?_⟩
      show pieces (c :: rest) = _
      rw [pieces.eq_def]
      split
      · cases ‹_ = []›
      · cases ‹_ = _›
        exact absurd rfl hquote
      · cases ‹_ = _›
        exact absurd rfl hbackslash
      · cases ‹_ = _›
        exact absurd rfl hbackslash
      · rename_i heq
        cases heq
        rw [if_neg hcontrol]
        cases pieces rest with
        | none | some => rfl

/-- The characters of a text are read up to its closing quote. -/
theorem pieces_text (rest : List Char) :
    ∀ cs : List Char, ∃ ps, pieces (cs.flatMap escape ++ '"' :: rest) = some (ps, rest) ∧
      join ps = some cs
  | [] => ⟨[], rfl, rfl⟩
  | c :: cs => by
    obtain ⟨piece, hstands, hpiece⟩ := exists_piece c
    obtain ⟨ps, hps, hjoin⟩ := pieces_text rest cs
    refine ⟨piece :: ps, ?_, ?_⟩
    · rw [List.flatMap_cons, List.append_assoc, hpiece, hps]
      rfl
    · rw [hstands, hjoin]
      rfl

/-- **A string literal is read as its text**, or as none if it stands for none. -/
theorem literal_writeText (text : Option String) (rest : List Char) :
    ∃ cs, writeText text = '"' :: cs ∧ literal (cs ++ rest) = some (text, rest) := by
  cases text with
  | none => exact ⟨_, rfl, rfl⟩
  | some s =>
      refine ⟨s.toList.flatMap escape ++ ['"'], rfl, ?_⟩
      obtain ⟨ps, hps, hjoin⟩ := pieces_text rest s.toList
      rw [List.append_assoc, List.singleton_append, literal, hps]
      show some ((join ps).map String.ofList, rest) = _
      rw [hjoin, Option.map_some, String.ofList_toList]

end Strings

section Numbers

/-- Nothing follows, or what ends a value inside a container. -/
def Ends (rest : List Char) : Prop :=
  ∀ c cs, rest = c :: cs → c = ',' ∨ c = ']' ∨ c = '}'

theorem ends_nil : Ends [] := nofun

theorem ends_cons {c : Char} (h : c = ',' ∨ c = ']' ∨ c = '}') (cs : List Char) : Ends (c :: cs) := by
  intro c' cs' heq
  cases heq
  exact h

/-- A run of digits is read up to its end. -/
theorem digits_append {ds rest : List Char} (hds : ∀ d ∈ ds, d.isDigit = true) (h : Ends rest) :
    digits (ds ++ rest) = (ds, rest) := by
  have hnone : rest.takeWhile Char.isDigit = [] ∧ rest.dropWhile Char.isDigit = rest := by
    cases rest with
    | nil => exact ⟨rfl, rfl⟩
    | cons c cs =>
        have hc : c.isDigit = false := by
          rcases h c cs rfl with rfl | rfl | rfl
          all_goals rfl
        exact ⟨List.takeWhile_cons_of_neg (by rw [hc]; nofun),
          List.dropWhile_cons_of_neg (by rw [hc]; nofun)⟩
  rw [digits, List.span_eq_takeWhile_dropWhile, List.takeWhile_append_of_pos hds,
    List.dropWhile_append_of_pos hds, hnone.1, hnone.2, List.append_nil]

/-- The digits of a number are what it was written with. -/
theorem ofDigits_toDigits (n : Nat) : ofDigits (Nat.toDigits 10 n) = n := by
  have hfold : ∀ ds : List Char, ofDigits ds = Nat.ofDigitChars 10 ds 0 := by
    intro ds
    rw [ofDigits, Nat.ofDigitChars_eq_foldl]
    congr 1
    funext n d
    rw [Nat.mul_comm]
  rw [hfold, Nat.ofDigitChars_ten_toDigits]

/-- A number other than zero does not start with a zero. -/
theorem head_toDigits {n : Nat} (h : n ≠ 0) (ds : List Char) : Nat.toDigits 10 n ≠ '0' :: ds := by
  induction n using Nat.strongRecOn generalizing ds with
  | ind n ih =>
      rw [Nat.toDigits_eq_if (by decide)]
      split
      · rename_i hlt
        have hdigit : ∀ n, n < 10 → n ≠ 0 → n.digitChar ≠ '0' := by decide
        intro heq
        exact hdigit n hlt h (List.cons.inj heq).1
      · rename_i hge
        intro heq
        cases hfirst : Nat.toDigits 10 (n / 10) with
        | nil => exact Nat.toDigits_ne_nil hfirst
        | cons c cs =>
            rw [hfirst, List.cons_append] at heq
            rw [(List.cons.inj heq).1] at hfirst
            exact ih (n / 10) (by omega) (by omega) cs hfirst

/-- The digits of a number are the part before a fraction. -/
theorem wholePart_toDigits (n : Nat) {rest : List Char} (h : Ends rest) :
    wholePart (Nat.toDigits 10 n ++ rest) = some (Nat.toDigits 10 n, rest) := by
  by_cases hzero : n = 0
  · subst hzero
    rfl
  · have hdigits : digits (Nat.toDigits 10 n ++ rest) = (Nat.toDigits 10 n, rest) :=
      digits_append (fun d hd => Nat.isDigit_of_mem_toDigits (by decide) (by decide) hd) h
    cases hds : Nat.toDigits 10 n with
    | nil => exact absurd hds Nat.toDigits_ne_nil
    | cons d ds =>
        have hd : d ≠ '0' := by
          rintro rfl
          exact head_toDigits hzero ds hds
        rw [hds] at hdigits
        rw [List.cons_append] at hdigits ⊢
        rw [wholePart.eq_def]
        split
        · rename_i heq
          exact absurd (List.cons.inj heq).1 hd
        · rw [hdigits]

theorem parts_of_ends {rest : List Char} (h : Ends rest) :
    fractionPart rest = some ([], rest) ∧ exponentPart rest = some ([], rest) := by
  cases rest with
  | nil => exact ⟨rfl, rfl⟩
  | cons c cs =>
      rcases h c cs rfl with rfl | rfl | rfl
      all_goals exact ⟨rfl, rfl⟩

/-- An integer is written with its digits, behind a sign if it is negative. -/
theorem toList_toString (n : Int) : (toString n).toList =
    if 0 ≤ n then Nat.toDigits 10 n.toNat else '-' :: Nat.toDigits 10 (-n).toNat := by
  rw [Int.toString_eq_repr, Int.repr_eq_if]
  split
  · exact Nat.toList_repr
  · rw [String.toList_append, Nat.toList_repr]
    rfl

/-- A number is read from its sign and its digits. -/
theorem number_of_sign {cs rest : List Char} {negative : Bool} {m : Nat}
    (hsign : numberSign cs = (negative, Nat.toDigits 10 m ++ rest)) (h : Ends rest)
    (hzero : negative = true → m ≠ 0) :
    number cs = some (.int (if negative then -m else m), rest) := by
  obtain ⟨hfraction, hexponent⟩ := parts_of_ends h
  have hint : (!(negative && decide (m = 0))) = true := by
    cases negative with
    | false => rfl
    | true => simp [hzero rfl]
  unfold number
  simp only [hsign, wholePart_toDigits m h, hfraction, hexponent, Option.bind_eq_bind,
    Option.bind_some, List.isEmpty_nil, Bool.true_and, ofDigits_toDigits]
  rw [if_pos hint]
  rfl

/-- Digits have no sign in front. -/
theorem numberSign_toDigits (n : Nat) (rest : List Char) :
    numberSign (Nat.toDigits 10 n ++ rest) = (false, Nat.toDigits 10 n ++ rest) := by
  cases hds : Nat.toDigits 10 n with
  | nil => exact absurd hds Nat.toDigits_ne_nil
  | cons d ds =>
      have hd : d.isDigit = true :=
        Nat.isDigit_of_mem_toDigits (b := 10) (n := n) (by decide) (by decide)
          (hds ▸ List.mem_cons_self)
      rw [List.cons_append, numberSign.eq_def]
      split
      · rename_i heq
        rw [(List.cons.inj heq).1] at hd
        cases hd
      · rfl

/-- **An integer is read from its digits**, with its sign, if what follows them does not go on with
the number. -/
theorem number_write (n : Int) {rest : List Char} (h : Ends rest) :
    number ((toString n).toList ++ rest) = some (.int n, rest) := by
  rw [toList_toString]
  split
  · rename_i hle
    rw [number_of_sign (numberSign_toDigits n.toNat rest) h nofun]
    simp only [Bool.false_eq_true, if_false, Int.toNat_of_nonneg hle]
  · rename_i hneg
    have hsign : numberSign ('-' :: (Nat.toDigits 10 (-n).toNat ++ rest)) =
        (true, Nat.toDigits 10 (-n).toNat ++ rest) := rfl
    rw [List.cons_append, number_of_sign hsign h (by omega)]
    have hback : -((-n).toNat : Int) = n := by omega
    simp only [if_true, hback]

end Numbers

/-- A value is plain if all numbers in it are integers. -/
inductive Value.Plain : Value → Prop
  | null : Plain .null
  | bool (b : Bool) : Plain (.bool b)
  | int (n : Int) : Plain (.int n)
  | string (text : Option String) : Plain (.string text)
  | array {vs : List Value} : (∀ v ∈ vs, Plain v) → Plain (.array vs)
  | object {fs : List (Option String × Value)} : (∀ f ∈ fs, Plain f.2) → Plain (.object fs)

/-- A text that does not start with a blank has none to skip. -/
theorem skipBlanks_cons {c : Char} (h : isBlank c = false) (cs : List Char) :
    skipBlanks (c :: cs) = c :: cs :=
  List.dropWhile_cons_of_neg (by rw [h]; nofun)

/-- An integer starts with a sign or a digit. -/
theorem exists_head_toString (n : Int) : ∃ c cs, (toString n).toList = c :: cs ∧
    ∀ other : Char, other ≠ '-' → other.isDigit = false → c ≠ other := by
  have hhead : ∃ c cs, (toString n).toList = c :: cs ∧ (c = '-' ∨ c.isDigit = true) := by
    rw [toList_toString]
    split
    · cases hds : Nat.toDigits 10 n.toNat with
      | nil => exact absurd hds Nat.toDigits_ne_nil
      | cons d ds =>
          exact ⟨d, ds, rfl, .inr (Nat.isDigit_of_mem_toDigits (b := 10) (n := n.toNat) (by decide)
            (by decide) (hds ▸ List.mem_cons_self))⟩
    · exact ⟨'-', _, rfl, .inl rfl⟩
  obtain ⟨c, cs, hcs, hc⟩ := hhead
  refine ⟨c, cs, hcs, ?_⟩
  rintro other hsign hdigit rfl
  exact hc.elim hsign fun htrue => by rw [hdigit] at htrue; cases htrue

/-- A value starts neither with a blank nor with a closing bracket. -/
theorem exists_head_write {v : Value} (h : v.Plain) :
    ∃ c cs, write v = c :: cs ∧ c ≠ ']' ∧ isBlank c = false := by
  cases h with
  | null => exact ⟨_, _, rfl, nofun, rfl⟩
  | bool b =>
      cases b with
      | true | false => exact ⟨_, _, rfl, nofun, rfl⟩
  | int n =>
      obtain ⟨c, cs, hcs, hother⟩ := exists_head_toString n
      refine ⟨c, cs, hcs, hother ']' nofun rfl, ?_⟩
      simp only [isBlank, Bool.or_eq_false_iff, decide_eq_false_iff_not]
      exact ⟨⟨⟨hother ' ' nofun rfl, hother '\n' nofun rfl⟩, hother '\t' nofun rfl⟩,
        hother '\r' nofun rfl⟩
  | string text =>
      obtain ⟨cs, hcs, _⟩ := literal_writeText text []
      exact ⟨_, cs, hcs, nofun, rfl⟩
  | array | object => exact ⟨_, _, rfl, nofun, rfl⟩

/-- An integer is read as a number. -/
theorem value_int (n : Int) (fuel : Nat) {rest : List Char} (h : Ends rest) :
    value (fuel + 1) ((toString n).toList ++ rest) = some (.int n, rest) := by
  have hnumber := number_write n h
  obtain ⟨c, cs, hcs, hother⟩ := exists_head_toString n
  obtain ⟨_, _, hwrite, _, hblank⟩ := exists_head_write (.int n)
  cases hwrite.symm.trans hcs
  rw [hcs, List.cons_append] at hnumber ⊢
  rw [value, skipBlanks_cons hblank]
  split
  iterate 6
    · rename_i heq
      exact absurd (List.cons.inj heq).1 (hother _ nofun rfl)
  · exact hnumber

/-- The text of items starts with that of the first one. -/
theorem exists_head_writeItems {v : Value} (h : v.Plain) (vs : List Value) :
    ∃ c cs, writeItems (v :: vs) = c :: cs ∧ c ≠ ']' ∧ isBlank c = false := by
  obtain ⟨c, cs, hcs, hclose, hblank⟩ := exists_head_write h
  cases vs with
  | nil => exact ⟨c, cs, hcs, hclose, hblank⟩
  | cons w vs =>
      refine ⟨c, cs ++ ',' :: writeItems (w :: vs), ?_, hclose, hblank⟩
      show write v ++ ',' :: writeItems (w :: vs) = _
      rw [hcs]
      rfl

/-- The text of fields starts with a quote. -/
theorem exists_head_writeFields (f : Option String × Value) (fs : List (Option String × Value)) :
    ∃ cs, writeFields (f :: fs) = '"' :: cs := by
  obtain ⟨name, v⟩ := f
  obtain ⟨cs, hcs, _⟩ := literal_writeText name []
  cases fs with
  | nil => exact ⟨cs ++ ':' :: write v, by rw [writeFields, hcs]; rfl⟩
  | cons g fs =>
      refine ⟨cs ++ ':' :: write v ++ ',' :: writeFields (g :: fs), ?_⟩
      show writeText name ++ ':' :: write v ++ ',' :: writeFields (g :: fs) = _
      rw [hcs]
      rfl

/-- An array with items is read as its items are. -/
theorem value_array {fuel : Nat} {c : Char} {cs rest : List Char} {vs : List Value}
    (hclose : c ≠ ']') (hblank : isBlank c = false) (h : items fuel (c :: cs) = some (vs, rest)) :
    value (fuel + 1) ('[' :: c :: cs) = some (.array vs, rest) := by
  have hopen : skipBlanks ('[' :: c :: cs) = '[' :: c :: cs := rfl
  rw [value, hopen]
  simp only [skipBlanks_cons hblank]
  split
  · rename_i heq
    exact absurd (List.cons.inj heq).1 hclose
  · rw [h]
    rfl

/-- An object with fields is read as its fields are. -/
theorem value_object {fuel : Nat} {cs rest : List Char} {fs : List (Option String × Value)}
    (h : fields fuel ('"' :: cs) = some (fs, rest)) :
    value (fuel + 1) ('{' :: '"' :: cs) = some (.object fs, rest) := by
  rw [value]
  show (fields fuel ('"' :: cs) >>= _) = _
  rw [h]
  rfl

mutual

/-- **A value is read from its text**, whatever ends it, if the fuel is at least the length of the
text. By induction on the value, together with its elements and fields. -/
theorem value_write :
    ∀ (v : Value) {fuel : Nat} {rest : List Char}, v.Plain → Ends rest →
      (write v).length ≤ fuel → value fuel (write v ++ rest) = some (v, rest)
  | v, 0, _, hplain, _, hfuel => by
    obtain ⟨c, cs, hcs, _⟩ := exists_head_write hplain
    rw [hcs] at hfuel
    cases hfuel
  | .real _, _, _, hplain, _, _ => by cases hplain
  | .null, fuel + 1, rest, _, _, _ | .bool true, fuel + 1, rest, _, _, _
  | .bool false, fuel + 1, rest, _, _, _ => by
    rw [value]
    rfl
  | .int n, fuel + 1, rest, _, hends, _ => value_int n fuel hends
  | .string text, fuel + 1, rest, _, _, hfuel => by
    obtain ⟨cs, hcs, hliteral⟩ := literal_writeText text rest
    rw [write, hcs, value]
    show (literal (cs ++ rest) >>= _) = _
    rw [hliteral]
    rfl
  | .array [], fuel + 1, rest, _, _, _ | .object [], fuel + 1, rest, _, _, _ => by
    rw [value]
    rfl
  | .array (v :: vs), fuel + 1, rest, .array hplain, _, hfuel => by
    obtain ⟨c, cs, hcs, hclose, hblank⟩ := exists_head_writeItems (hplain v List.mem_cons_self) vs
    have hlength : (writeItems (v :: vs)).length + 1 ≤ fuel := by
      rw [write, List.length_append, List.length_cons, List.length_singleton] at hfuel
      omega
    have hitems : items fuel (writeItems (v :: vs) ++ ']' :: rest) = some (v :: vs, rest) :=
      items_write (v :: vs) nofun hplain hlength
    rw [hcs] at hitems
    rw [write, List.append_assoc, List.cons_append, List.singleton_append, hcs]
    exact value_array hclose hblank hitems
  | .object (f :: fs), fuel + 1, rest, .object hplain, _, hfuel => by
    obtain ⟨cs, hcs⟩ := exists_head_writeFields f fs
    have hlength : (writeFields (f :: fs)).length + 1 ≤ fuel := by
      rw [write, List.length_append, List.length_cons, List.length_singleton] at hfuel
      omega
    have hfields : fields fuel (writeFields (f :: fs) ++ '}' :: rest) = some (f :: fs, rest) :=
      fields_write (f :: fs) nofun hplain hlength
    rw [hcs] at hfields
    rw [write, List.append_assoc, List.cons_append, List.singleton_append, hcs]
    exact value_object hfields

/-- Items are read from their text, up to the closing bracket. -/
theorem items_write :
    ∀ (vs : List Value) {fuel : Nat} {rest : List Char}, vs ≠ [] → (∀ v ∈ vs, v.Plain) →
      (writeItems vs).length + 1 ≤ fuel →
      items fuel (writeItems vs ++ ']' :: rest) = some (vs, rest)
  | [], _, _, hne, _, _ => absurd rfl hne
  | _ :: _, 0, _, _, _, hfuel => by cases hfuel
  | [v], fuel + 1, rest, _, hplain, hfuel => by
    rw [writeItems] at hfuel ⊢
    rw [items, value_write v (hplain v List.mem_cons_self) (ends_cons (.inr (.inl rfl)) rest)
      (by omega)]
    rfl
  | v :: w :: vs, fuel + 1, rest, _, hplain, hfuel => by
    have hwrite : writeItems (v :: w :: vs) = write v ++ ',' :: writeItems (w :: vs) := rfl
    rw [hwrite, List.length_append, List.length_cons] at hfuel
    rw [hwrite, List.append_assoc, List.cons_append, items,
      value_write v (hplain v List.mem_cons_self) (ends_cons (.inl rfl) _) (by omega)]
    show (items fuel (writeItems (w :: vs) ++ ']' :: rest) >>= _) = _
    rw [items_write (w :: vs) nofun (fun v hv => hplain v (List.mem_cons_of_mem _ hv)) (by omega)]
    rfl

/-- Fields are read from their text, up to the closing brace. -/
theorem fields_write :
    ∀ (fs : List (Option String × Value)) {fuel : Nat} {rest : List Char}, fs ≠ [] →
      (∀ f ∈ fs, f.2.Plain) → (writeFields fs).length + 1 ≤ fuel →
      fields fuel (writeFields fs ++ '}' :: rest) = some (fs, rest)
  | [], _, _, hne, _, _ => absurd rfl hne
  | _ :: _, 0, _, _, _, hfuel => by cases hfuel
  | [(name, v)], fuel + 1, rest, _, hplain, hfuel => by
    have hwrite : writeFields [(name, v)] = writeText name ++ ':' :: write v := rfl
    obtain ⟨cs, hcs, hliteral⟩ := literal_writeText name (':' :: (write v ++ '}' :: rest))
    rw [hwrite, List.length_append, List.length_cons] at hfuel
    rw [hwrite, List.append_assoc, List.cons_append, hcs, fields]
    show (literal (cs ++ ':' :: (write v ++ '}' :: rest)) >>= _) = _
    rw [hliteral]
    show (value fuel (write v ++ '}' :: rest) >>= _) = _
    rw [value_write v (hplain _ List.mem_cons_self) (ends_cons (.inr (.inr rfl)) rest) (by omega)]
    rfl
  | (name, v) :: g :: fs, fuel + 1, rest, _, hplain, hfuel => by
    have hwrite : writeFields ((name, v) :: g :: fs) =
        writeText name ++ ':' :: write v ++ ',' :: writeFields (g :: fs) := rfl
    obtain ⟨cs, hcs, hliteral⟩ :=
      literal_writeText name (':' :: (write v ++ ',' :: (writeFields (g :: fs) ++ '}' :: rest)))
    rw [hwrite, List.length_append, List.length_append, List.length_cons, List.length_cons] at hfuel
    rw [hwrite, List.append_assoc, List.append_assoc, List.cons_append, List.cons_append, hcs, fields]
    show (literal (cs ++ ':' :: (write v ++ ',' :: (writeFields (g :: fs) ++ '}' :: rest))) >>= _) = _
    rw [hliteral]
    show (value fuel (write v ++ ',' :: (writeFields (g :: fs) ++ '}' :: rest)) >>= _) = _
    rw [value_write v (hplain _ List.mem_cons_self) (ends_cons (.inl rfl) _) (by omega)]
    show (fields fuel (writeFields (g :: fs) ++ '}' :: rest) >>= _) = _
    rw [fields_write (g :: fs) nofun (fun f hf => hplain f (List.mem_cons_of_mem _ hf)) (by omega)]
    rfl

end

/-- **A plain value is read from its text.**  The only values that are not plain are those with real
numbers in them, which the encoding of a program never has. -/
theorem read_toText {v : Value} (h : v.Plain) : read v.toText = some v := by
  unfold read Value.toText
  rw [String.toList_ofList]
  have hvalue : value (2 * (write v).length + 1) (write v ++ []) = some (v, []) :=
    value_write v h ends_nil (by omega)
  rw [List.append_nil] at hvalue
  simp only [hvalue]
  rfl

end Stackless.Json
