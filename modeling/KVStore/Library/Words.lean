import KVStore.Library.Framing
import Mathlib.Data.List.DropRight

namespace KVStore
namespace Words

/-!
# Words of a text

White space as the package `strings` of Go sees it.  A text is any byte string.
It is read as UTF-8 from left to right: an encoding of a character is taken
whole, and a byte that starts none is a character of its own, so that every text
falls into characters and none of its bytes is lost.

A byte that does not continue an encoding always starts a character.  Every white
space starts with such a byte, so a text may be cut before and behind a white
space without changing how the pieces are read.  This is what makes words that
were split off a text, and joined again by spaces, come back from the next
splitting, whatever bytes they are made of.
-/

/-! ## Runs between separators -/

section Runs

variable {X : Type}

/-- The run that is open at a separator or at the end, if there is one. -/
def closed (run : List X) : List (List X) := if run = [] then [] else [run]

/-- The maximal runs without a separator, from left to right.  The first argument
is the run that is open. -/
def runsFrom (separates : X -> Bool) : List X -> List X -> List (List X)
  | run, [] => closed run
  | run, first :: rest =>
      if separates first then closed run ++ runsFrom separates [] rest
      else runsFrom separates (run ++ [first]) rest

variable {separates : X -> Bool}

theorem runsFrom_run {items : List X} (none : forall item, item ∈ items -> separates item = false)
    (run rest : List X) :
    runsFrom separates run (items ++ rest) = runsFrom separates (run ++ items) rest := by
  induction items generalizing run with
  | nil => rw [List.nil_append, List.append_nil]
  | cons item items ih =>
      have later := fun other member => none other (List.mem_cons_of_mem item member)
      rw [List.cons_append, runsFrom, none item List.mem_cons_self, if_neg Bool.false_ne_true,
        ih later, List.append_assoc]
      rfl

theorem runsFrom_solid {items : List X}
    (none : forall item, item ∈ items -> separates item = false) :
    runsFrom separates [] items = closed items := by
  have run := runsFrom_run none [] []
  rw [List.append_nil, List.nil_append] at run
  rw [run, runsFrom]

theorem runsFrom_separator {item : X} (isSeparator : separates item = true) (run rest : List X) :
    runsFrom separates run (item :: rest) = closed run ++ runsFrom separates [] rest := by
  rw [runsFrom, if_pos isSeparator]

/-- Separators in front of everything else open no run. -/
theorem runsFrom_separators {items : List X}
    (all : forall item, item ∈ items -> separates item = true) (rest : List X) :
    runsFrom separates [] (items ++ rest) = runsFrom separates [] rest := by
  induction items with
  | nil => rfl
  | cons item items ih =>
      rw [List.cons_append, runsFrom_separator (all item List.mem_cons_self)]
      exact ih fun other member => all other (List.mem_cons_of_mem item member)

/-- Separators at the end add no run. -/
theorem runsFrom_append_separators {items : List X}
    (all : forall item, item ∈ items -> separates item = true) (run front : List X) :
    runsFrom separates run (front ++ items) = runsFrom separates run front := by
  induction front generalizing run with
  | nil =>
      cases items with
      | nil => rfl
      | cons item items =>
          have none := runsFrom_separators
            (fun other member => all other (List.mem_cons_of_mem item member)) []
          rw [List.append_nil] at none
          rw [List.nil_append, runsFrom_separator (all item List.mem_cons_self), none]
          exact List.append_nil _
  | cons first front ih =>
      rw [List.cons_append, runsFrom, runsFrom, ih, ih]

/-- Items hold no separator, or are cut at the first one. -/
theorem solid_or_split (separates : X -> Bool) (items : List X) :
    (forall item, item ∈ items -> separates item = false) ∨
      Exists fun front => Exists fun separator => Exists fun back => items = front ++
        separator :: back ∧
        (forall item, item ∈ front -> separates item = false) ∧ separates separator = true := by
  induction items with
  | nil => exact Or.inl (List.forall_mem_nil _)
  | cons first items ih =>
      cases kind : separates first with
      | true => exact Or.inr ⟨[], first, items, rfl, List.forall_mem_nil _, kind⟩
      | false =>
          rcases ih with solid | ⟨front, separator, back, split, solid, isSeparator⟩
          · exact Or.inl (List.forall_mem_cons.mpr ⟨kind, solid⟩)
          · refine Or.inr ⟨first :: front, separator, back, ?_,
              List.forall_mem_cons.mpr ⟨kind, solid⟩, isSeparator⟩
            rw [split, List.cons_append]

end Runs

/-! ## Characters -/

/-- The bytes that continue an encoding. -/
def continues (byte : UInt8) : Bool := decide (0x80 ≤ byte.toNat ∧ byte.toNat ≤ 0xBF)

/-- For the first byte of an encoding of several bytes: how many follow, and the
range of the one that follows first. -/
def leads (first : UInt8) : Option (Nat × Nat × Nat) :=
  let byte := first.toNat
  if 0xC2 ≤ byte ∧ byte ≤ 0xDF then some (1, 0x80, 0xBF)
  else if byte = 0xE0 then some (2, 0xA0, 0xBF)
  else if byte = 0xED then some (2, 0x80, 0x9F)
  else if 0xE1 ≤ byte ∧ byte ≤ 0xEF then some (2, 0x80, 0xBF)
  else if byte = 0xF0 then some (3, 0x90, 0xBF)
  else if 0xF1 ≤ byte ∧ byte ≤ 0xF3 then some (3, 0x80, 0xBF)
  else if byte = 0xF4 then some (3, 0x80, 0x8F)
  else none

/-- A text starts with so many bytes that continue an encoding, the first of them
in a range. -/
def follows : Nat -> Nat -> Nat -> Bytes -> Bool
  | 0, _, _, _ => true
  | _ + 1, _, _, [] => false
  | count + 1, low, high, byte :: rest =>
      decide (low ≤ byte.toNat ∧ byte.toNat ≤ high) && follows count 0x80 0xBF rest

/-- The number of bytes of the first character. -/
def width : Bytes -> Nat
  | [] => 0
  | first :: rest =>
      match leads first with
      | none => 1
      | some (count, low, high) => if follows count low high rest then count + 1 else 1

def charactersFrom : Nat -> Bytes -> List Bytes
  | 0, _ => []
  | fuel + 1, text =>
      if text = [] then [] else text.take (width text) :: charactersFrom fuel (text.drop (width text))

/-- The characters of a text. -/
def characters (text : Bytes) : List Bytes := charactersFrom text.length text

theorem leads_eq_some {first : UInt8} {count low high : Nat}
    (lead : leads first = some (count, low, high)) :
    continues first = false ∧ 0x80 ≤ low ∧ high ≤ 0xBF := by
  have outside : 0xBF < first.toNat -> continues first = false :=
    fun large => decide_eq_false (by omega)
  simp only [leads] at lead
  split_ifs at lead <;> cases lead <;> exact ⟨outside (by omega), by decide, by decide⟩

theorem leads_of_small {first : UInt8} (small : first.toNat < 0x80) : leads first = none := by
  simp only [leads]
  rw [if_neg (by omega), if_neg (by omega), if_neg (by omega), if_neg (by omega), if_neg (by omega),
    if_neg (by omega), if_neg (by omega)]

theorem follows_length {count low high : Nat} {rest : Bytes}
    (follow : follows count low high rest = true) :
    count ≤ rest.length := by
  induction count generalizing low high rest with
  | zero => exact Nat.zero_le _
  | succ count ih =>
      cases rest with
      | nil => cases follow
      | cons byte rest =>
          rw [follows, Bool.and_eq_true] at follow
          exact Nat.succ_le_succ (ih follow.2)

variable {text : Bytes}

theorem width_pos (nonempty : text ≠ []) : 0 < width text := by
  cases text with
  | nil => exact absurd rfl nonempty
  | cons first rest =>
      rw [width]
      split
      · exact Nat.one_pos
      · split
        · exact Nat.succ_pos _
        · exact Nat.one_pos

theorem width_le (text : Bytes) : width text ≤ text.length := by
  cases text with
  | nil => exact Nat.le_refl 0
  | cons first rest =>
      rw [width, List.length_cons]
      split
      · exact Nat.succ_le_succ (Nat.zero_le _)
      · split
        next follow => exact Nat.succ_le_succ (follows_length follow)
        next => exact Nat.succ_le_succ (Nat.zero_le _)

theorem length_drop_width (nonempty : text ≠ []) :
    (text.drop (width text)).length < text.length := by
  have positive := width_pos nonempty
  have bound := width_le text
  rw [List.length_drop]
  omega

theorem charactersFrom_nil (fuel : Nat) : charactersFrom fuel [] = [] := by
  cases fuel with
  | zero => rfl
  | succ fuel => rw [charactersFrom, if_pos rfl]

/-- One unit of fuel for each byte is enough. -/
theorem charactersFrom_eq {first second : Nat} (enough : text.length ≤ first)
    (alsoEnough : text.length ≤ second) :
    charactersFrom first text = charactersFrom second text := by
  induction first generalizing second text with
  | zero =>
      rw [List.length_eq_zero_iff.mp (Nat.le_zero.mp enough), charactersFrom_nil,
        charactersFrom_nil]
  | succ first ih =>
      by_cases empty : text = []
      · rw [empty, charactersFrom_nil, charactersFrom_nil]
      · have shorter := length_drop_width empty
        cases second with
        | zero => exact absurd (List.length_eq_zero_iff.mp (Nat.le_zero.mp alsoEnough)) empty
        | succ second =>
            rw [charactersFrom, charactersFrom, if_neg empty, if_neg empty,
              ih (by omega : _ ≤ first) (by omega : _ ≤ second)]

theorem characters_of_ne_nil (nonempty : text ≠ []) :
    characters text = text.take (width text) :: characters (text.drop (width text)) := by
  have shorter := length_drop_width nonempty
  have more : characters text = charactersFrom (text.length + 1) text :=
    charactersFrom_eq (Nat.le_refl _) (Nat.le_succ _)
  rw [more, charactersFrom, if_neg nonempty, charactersFrom_eq (Nat.le_of_lt shorter) (Nat.le_refl _)]
  rfl

/-- Induction along the characters of a text. -/
theorem characters_induction {motive : Bytes -> Prop} (empty : motive [])
    (step : forall text, text ≠ [] -> motive (text.drop (width text)) -> motive text)
    (text : Bytes) :
    motive text := by
  induction count : text.length using Nat.strong_induction_on generalizing text with
  | _ count ih =>
      by_cases nonempty : text = []
      · exact nonempty ▸ empty
      · have shorter := length_drop_width nonempty
        exact step text nonempty (ih _ (count ▸ shorter) _ rfl)

@[simp] theorem flatten_characters (text : Bytes) : (characters text).flatten = text := by
  induction text using characters_induction with
  | empty => rfl
  | step text nonempty ih =>
      rw [characters_of_ne_nil nonempty, List.flatten_cons, ih, List.take_append_drop]

/-! ## Boundaries -/

/-- A text that does not start in the middle of an encoding. -/
def Whole (text : Bytes) : Prop := forall first, text.head? = some first -> continues first = false

theorem whole_nil : Whole [] := fun _ none => absurd none (Option.some_ne_none _).symm

theorem whole_cons {first : UInt8} (starts : continues first = false) (rest : Bytes) :
    Whole (first :: rest) := by
  intro other same
  exact Option.some.inj same ▸ starts

/-- What is behind a boundary continues no encoding before it. -/
theorem follows_append {count low high : Nat} (least : 0x80 ≤ low) (greatest : high ≤ 0xBF)
    (front : Bytes) {back : Bytes} (whole : Whole back) :
    follows count low high (front ++ back) = follows count low high front := by
  induction count generalizing low high front with
  | zero => rfl
  | succ count ih =>
      cases front with
      | cons byte front =>
          rw [List.cons_append, follows, follows, ih (by decide) (by decide)]
      | nil =>
          cases back with
          | nil => rfl
          | cons byte back =>
              have starts := of_decide_eq_false (whole byte rfl)
              have outside : ¬ (low ≤ byte.toNat ∧ byte.toNat ≤ high) := by omega
              have refused : follows (count + 1) low high (byte :: back) = false := by
                rw [follows, decide_eq_false outside, Bool.false_and]
              exact refused

theorem width_append {front back : Bytes} (nonempty : front ≠ []) (whole : Whole back) :
    width (front ++ back) = width front := by
  cases front with
  | nil => exact absurd rfl nonempty
  | cons first front =>
      rw [List.cons_append, width, width]
      cases lead : leads first with
      | none => rfl
      | some range =>
          rcases range with ⟨count, low, high⟩
          have bounds := (leads_eq_some lead).2
          simp only [follows_append bounds.1 bounds.2 front whole]

/-- A boundary cuts no character. -/
theorem characters_append (front : Bytes) {back : Bytes} (whole : Whole back) :
    characters (front ++ back) = characters front ++ characters back := by
  induction front using characters_induction with
  | empty => rfl
  | step front nonempty ih =>
      have bound := width_le front
      rw [characters_of_ne_nil (List.append_ne_nil_of_left_ne_nil nonempty back),
        width_append nonempty whole, List.take_append_of_le_length bound,
        List.drop_append_of_le_length bound, ih, characters_of_ne_nil nonempty]
      rfl

/-- What is left of a text behind some of its characters is read as before. -/
theorem characters_behind {front back : List Bytes} (split : characters text = front ++ back) :
    characters back.flatten = back := by
  induction front generalizing text with
  | nil =>
      rw [List.nil_append] at split
      rw [← split, flatten_characters]
  | cons first front ih =>
      have nonempty : text ≠ [] := by
        rintro rfl
        cases split
      rw [characters_of_ne_nil nonempty, List.cons_append, List.cons.injEq] at split
      exact ih split.2

/-- And so is what is before them. -/
theorem characters_before {front back : List Bytes} (split : characters text = front ++ back)
    (whole : Whole back.flatten) : characters front.flatten = front := by
  have joined : text = front.flatten ++ back.flatten := by
    rw [← List.flatten_append, ← split, flatten_characters]
  have behind := characters_behind split
  rw [joined, characters_append _ whole, behind] at split
  exact List.append_cancel_right split

theorem characters_small {byte : UInt8} (small : byte.toNat < 0x80) (rest : Bytes) :
    characters (byte :: rest) = [byte] :: characters rest := by
  have single : width (byte :: rest) = 1 := by rw [width, leads_of_small small]
  rw [characters_of_ne_nil (List.cons_ne_nil _ _), single]
  rfl

/-! ## White space -/

/-- The code point of a character, and U+FFFD for a byte that is no encoding. -/
def rune : Bytes -> Nat
  | [first] => if first.toNat < 0x80 then first.toNat else 0xFFFD
  | [first, second] => first.toNat % 32 * 64 + second.toNat % 64
  | [first, second, third] => (first.toNat % 16 * 64 + second.toNat % 64) * 64 + third.toNat % 64
  | [first, second, third, fourth] =>
      ((first.toNat % 8 * 64 + second.toNat % 64) * 64 + third.toNat % 64) * 64 + fourth.toNat % 64
  | _ => 0xFFFD

/-- `unicode.IsSpace`. -/
def isSpaceRune (code : Nat) : Bool :=
  decide (9 ≤ code ∧ code ≤ 13 ∨ code = 0x20 ∨ code = 0x85 ∨ code = 0xA0 ∨ code = 0x1680 ∨
    0x2000 ≤ code ∧ code ≤ 0x200A ∨ code = 0x2028 ∨ code = 0x2029 ∨ code = 0x202F ∨ code = 0x205F ∨
      code = 0x3000)

def isSpace (character : Bytes) : Bool := isSpaceRune (rune character)

/-- `strings.Fields`: the maximal runs of characters without white space. -/
def fields (text : Bytes) : List Bytes := (runsFrom isSpace [] (characters text)).map List.flatten

/-- `strings.TrimSpace`.  Go reads the end of the text from the right; there too
an encoding starts with the next byte that does not continue one. -/
def trimSpace (text : Bytes) : Bytes :=
  (((characters text).dropWhile isSpace).rdropWhile isSpace).flatten

/-- A text that starts with a white space does not start inside an encoding. -/
theorem whole_of_isSpace (space : isSpace (text.take (width text)) = true) : Whole text := by
  cases text with
  | nil => exact whole_nil
  | cons first rest =>
      refine whole_cons ?_ rest
      rw [width] at space
      cases lead : leads first with
      | some range => exact (leads_eq_some lead).1
      | none =>
          rw [lead] at space
          change isSpaceRune (rune [first]) = true at space
          rw [rune] at space
          split at space
          next small => exact decide_eq_false (by omega)
          next => exact absurd space (by decide)

theorem whole_of_characters {front back : List Bytes} {space : Bytes}
    (split : characters text = front ++ space :: back) (isSeparator : isSpace space = true) :
    Whole (space :: back).flatten := by
  have behind := characters_behind split
  have nonempty : (space :: back).flatten ≠ [] := by
    intro empty
    rw [empty] at behind
    cases behind
  rw [characters_of_ne_nil nonempty, List.cons.injEq] at behind
  apply whole_of_isSpace
  rw [behind.1]
  exact isSeparator

/-! ## Words -/

/-- A text with at least one character and no white space. -/
structure Word (text : Bytes) : Prop where
  nonempty : text ≠ []
  solid : forall character, character ∈ characters text -> isSpace character = false

instance (text : Bytes) : Decidable (Word text) :=
  decidable_of_iff (text ≠ [] ∧ forall character, character ∈ characters text ->
    isSpace character = false) ⟨fun both => ⟨both.1, both.2⟩, fun word => ⟨word.nonempty, word.solid⟩⟩

/-- A text without white space is one word, or nothing. -/
theorem fields_solid
    (solid : forall character, character ∈ characters text -> isSpace character = false) :
    fields text = closed text := by
  rw [fields, runsFrom_solid solid, closed, closed]
  by_cases empty : text = []
  · rw [if_pos empty, empty]
    rfl
  · have some : characters text ≠ [] := by
      rw [characters_of_ne_nil empty]
      exact List.cons_ne_nil _ _
    rw [if_neg empty, if_neg some, List.map_singleton, flatten_characters]

/-- The words of a text that is cut at a white space. -/
theorem fields_split {front back : List Bytes} {space : Bytes}
    (split : characters text = front ++ space :: back)
    (solid : forall character, character ∈ front -> isSpace character = false)
    (isSeparator : isSpace space = true) :
    fields text = fields front.flatten ++ fields back.flatten := by
  have before := characters_before split (whole_of_characters split isSeparator)
  rw [List.append_cons] at split
  have behind := characters_behind split
  rw [← List.append_cons] at split
  have first : fields front.flatten = (closed front).map List.flatten := by
    rw [fields, before, runsFrom_solid solid]
  rw [first, fields, split, runsFrom_run solid, runsFrom_separator isSeparator, List.map_append,
    fields, behind]
  rfl

/-- Every word that is split off a text is a word. -/
theorem word_of_mem_fields {text word : Bytes} (member : word ∈ fields text) : Word word := by
  induction count : text.length using Nat.strong_induction_on generalizing text with
  | _ count ih =>
      have ofSolid : forall part,
          (forall character, character ∈ characters part -> isSpace character = false) ->
          word ∈ fields part -> Word word := by
        intro part solid inside
        rw [fields_solid solid, closed] at inside
        split at inside
        · cases inside
        next nonempty =>
          cases List.mem_singleton.mp inside
          exact ⟨nonempty, solid⟩
      rcases solid_or_split isSpace (characters text) with solid
        | ⟨front, space, back, split, solid, isSeparator⟩
      · exact ofSolid text solid member
      · have before := characters_before split (whole_of_characters split isSeparator)
        rw [fields_split split solid isSeparator, List.mem_append] at member
        rcases member with first | later
        · exact ofSolid front.flatten (before.symm ▸ solid) first
        · refine ih _ ?_ later rfl
          have nonempty : space ≠ [] := by
            rintro rfl
            cases isSeparator
          rw [← count, ← flatten_characters text, split, List.flatten_append, List.flatten_cons,
            List.length_append, List.length_append]
          have positive := List.length_pos_iff.mpr nonempty
          omega

theorem fields_word (isWord : Word text) : fields text = [text] := by
  rw [fields_solid isWord.solid, closed, if_neg isWord.nonempty]

/-- The first word of a text in which a space follows it. -/
theorem fields_word_space (isWord : Word text) (rest : Bytes) :
    fields (text ++ 32 :: rest) = text :: fields rest := by
  have split : characters (text ++ 32 :: rest) = characters text ++ [32] :: characters rest := by
    rw [characters_append text (whole_cons rfl rest), characters_small (by decide)]
  rw [fields_split split isWord.solid rfl, flatten_characters, flatten_characters, fields_word isWord,
    List.singleton_append]

/-- Words joined by spaces come back. -/
theorem fields_join {words : List Bytes} (all : forall word, word ∈ words -> Word word) :
    fields ([32].intercalate words) = words := by
  induction words with
  | nil => rfl
  | cons first words ih =>
      have isWord := all first List.mem_cons_self
      have later := ih fun word member => all word (List.mem_cons_of_mem first member)
      cases words with
      | nil =>
          rw [List.intercalate_singleton]
          exact fields_word isWord
      | cons second words =>
          rw [List.intercalate_cons_cons, List.append_assoc, List.singleton_append,
            fields_word_space isWord, later]

/-- The words of a text survive being joined by spaces. -/
theorem fields_join_fields (text : Bytes) : fields ([32].intercalate (fields text)) = fields text :=
  fields_join fun _ member => word_of_mem_fields member

/-! ## Trimming -/

/-- A text between white spaces. -/
theorem characters_trimSpace (text : Bytes) : Exists fun front => Exists fun back =>
    characters text = front ++ characters (trimSpace text) ++ back ∧
      (forall character, character ∈ front -> isSpace character = true) ∧
      (forall character, character ∈ back -> isSpace character = true) := by
  let middle := (characters text).dropWhile isSpace
  have joined : (characters text).takeWhile isSpace ++ middle = characters text :=
    List.takeWhile_append_dropWhile
  have middleJoined : middle.rdropWhile isSpace ++ middle.rtakeWhile isSpace = middle :=
    List.rdropWhile_append_rtakeWhile
  have backSpaces : forall character, character ∈ middle.rtakeWhile isSpace ->
      isSpace character = true :=
    fun _ member => List.mem_rtakeWhile_imp member
  refine ⟨(characters text).takeWhile isSpace, middle.rtakeWhile isSpace, ?_,
    fun _ member => List.mem_takeWhile_imp member, backSpaces⟩
  have kept : characters (trimSpace text) = middle.rdropWhile isSpace := by
    have middleText : characters middle.flatten = middle := characters_behind joined.symm
    refine characters_before (middleText.trans middleJoined.symm) ?_
    cases spaces : middle.rtakeWhile isSpace with
    | nil => exact whole_nil
    | cons space back =>
        rw [spaces] at middleJoined backSpaces
        exact whole_of_characters (middleText.trans middleJoined.symm)
          (backSpaces space List.mem_cons_self)
  rw [kept, List.append_assoc, middleJoined, joined]

theorem fields_trimSpace (text : Bytes) : fields (trimSpace text) = fields text := by
  rcases characters_trimSpace text with ⟨front, back, split, frontSpaces, backSpaces⟩
  rw [fields, fields, split, runsFrom_append_separators backSpaces, runsFrom_separators frontSpaces]

/-- A word between no white space and some. -/
theorem trimSpace_word_append (isWord : Word text) {spaces : Bytes} (whole : Whole spaces)
    (all : forall character, character ∈ characters spaces -> isSpace character = true) :
    trimSpace (text ++ spaces) = text := by
  have noSpaceFirst : (characters text ++ characters spaces).dropWhile isSpace = characters text ++
      characters spaces := by
    rw [characters_of_ne_nil isWord.nonempty, List.cons_append, List.dropWhile_cons,
      isWord.solid _ ?_]
    · rfl
    · rw [characters_of_ne_nil isWord.nonempty]
      exact List.mem_cons_self
  rw [trimSpace, characters_append text whole, noSpaceFirst, List.rdropWhile, List.reverse_append,
    List.dropWhile_append_of_pos fun character member => all character (List.mem_reverse.mp member)]
  have noSpaceLast : (characters text).reverse.dropWhile isSpace = (characters text).reverse := by
    rw [List.dropWhile_eq_self_iff]
    intro bound isSeparator
    have member := List.mem_reverse.mp (List.getElem_mem bound)
    rw [isWord.solid _ member] at isSeparator
    cases isSeparator
  rw [noSpaceLast, List.reverse_reverse, flatten_characters]

/-! ## Small characters -/

theorem characters_of_small (small : forall byte, byte ∈ text -> byte.toNat < 0x80) :
    characters text = text.map fun byte => [byte] := by
  induction text with
  | nil => rfl
  | cons byte text ih =>
      rw [characters_small (small byte List.mem_cons_self), List.map_cons,
        ih fun other member => small other (List.mem_cons_of_mem byte member)]

/-- A text of small characters is a word if none of them is a white space. -/
theorem word_of_small (nonempty : text ≠ []) (small : forall byte, byte ∈ text -> byte.toNat < 0x80)
    (solid : forall byte, byte ∈ text -> isSpace [byte] = false) : Word text := by
  refine ⟨nonempty, ?_⟩
  intro character member
  rw [characters_of_small small] at member
  rcases List.mem_map.mp member with ⟨byte, inside, rfl⟩
  exact solid byte inside

/-- No small white space is inside a word. -/
theorem Word.ne_of_mem (isWord : Word text) {byte space : UInt8} (member : byte ∈ text)
    (small : space.toNat < 0x80) (isSeparator : isSpace [space] = true) : byte ≠ space := by
  rintro rfl
  rcases List.append_of_mem member with ⟨front, back, rfl⟩
  have starts : continues byte = false := decide_eq_false (by omega)
  have inside : [byte] ∈ characters (front ++ byte :: back) := by
    rw [characters_append front (whole_cons starts back), characters_small small]
    exact List.mem_append_right _ List.mem_cons_self
  rw [isWord.solid _ inside] at isSeparator
  cases isSeparator

end Words
end KVStore
