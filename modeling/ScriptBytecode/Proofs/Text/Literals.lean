/-
Module: ScriptBytecode.Proofs.Text.Literals
Purpose: Source literals are read back. A reader that knows the escapes passes over each written character as one, so
  the first quote that no backslash escapes is the one that ends the literal, whatever the text holds and whatever
  follows. Main statement: every literal ends where it seems to end and stands for the text that was written.
Main exports: unescapedQuote?, unescape?, readLiteral?, unescapedQuote?_flatMap_literalChar,
  unescape?_flatMap_literalChar, literal_delimited
-/
import ScriptBytecode.Text.Quoted

namespace ScriptBytecode.Text

/-!
### Reading
-/

/-- Number of characters before the first quote that no backslash escapes. -/
def unescapedQuote? : List Char → Option Nat
  | [] => none
  | '"' :: _ => some 0
  | '\\' :: _ :: rest => (unescapedQuote? rest).map (· + 2)
  | _ :: rest => (unescapedQuote? rest).map (· + 1)

/-- The character that a backslash and another character stand for. -/
def escape? : Char → Option Char
  | '"' => some '"'
  | '\\' => some '\\'
  | 'n' => some '\n'
  | _ => none

/-- The text that is written with escapes. A backslash that begins none of them stands for nothing. -/
def unescape? : List Char → Option (List Char)
  | [] => some []
  | ['\\'] => none
  | '\\' :: c :: rest => (escape? c).bind fun escaped => (unescape? rest).map (escaped :: ·)
  | c :: rest => (unescape? rest).map (c :: ·)

/-- The literal that a text begins with, from quote to quote, and the text that it stands for. -/
def readLiteral? (text : String) : Option (String × String) :=
  match text.toList with
  | '"' :: chars => do
    let stop ← unescapedQuote? chars
    let value ← unescape? (chars.take stop)
    return (String.ofList ('"' :: chars.take (stop + 1)), String.ofList value)
  | _ => none

/-!
### One character
-/

/-- What is written for a character ends no literal. -/
theorem unescapedQuote?_literalChar (c : Char) (rest : List Char) :
    unescapedQuote? (literalChar c ++ rest) = (unescapedQuote? rest).map (· + (literalChar c).length) := by
  fun_cases literalChar c with
  | case1 => rfl
  | case2 => rfl
  | case3 => rfl
  | case4 _ hquote hbackslash hfeed =>
      rw [List.singleton_append, unescapedQuote?]
      · rfl
      · exact hquote
      · exact fun _ _ h => absurd h hbackslash

/-- What is written for a character stands for it. -/
theorem unescape?_literalChar (c : Char) (rest : List Char) :
    unescape? (literalChar c ++ rest) = (unescape? rest).map (c :: ·) := by
  fun_cases literalChar c with
  | case1 => rfl
  | case2 => rfl
  | case3 => rfl
  | case4 _ hquote hbackslash hfeed =>
      rw [List.singleton_append, unescape?]
      · exact fun h _ => absurd h hbackslash
      · exact fun _ _ h => absurd h hbackslash

theorem newline_not_mem_literalChar (c : Char) : '\n' ∉ literalChar c := by
  fun_cases literalChar c with
  | case1 => decide
  | case2 => decide
  | case3 => decide
  | case4 _ hquote hbackslash hfeed => simpa using Ne.symm hfeed

/-!
### Literals
-/

theorem unescapedQuote?_flatMap_literalChar (chars rest : List Char) :
    unescapedQuote? (chars.flatMap literalChar ++ '"' :: rest) = some (chars.flatMap literalChar).length := by
  induction chars with
  | nil => rfl
  | cons c chars ih =>
      rw [List.flatMap_cons, List.append_assoc, unescapedQuote?_literalChar, ih, Option.map_some, List.length_append,
        Nat.add_comm]

theorem unescape?_flatMap_literalChar (chars : List Char) : unescape? (chars.flatMap literalChar) = some chars := by
  induction chars with
  | nil => rfl
  | cons c chars ih => rw [List.flatMap_cons, unescape?_literalChar, ih, Option.map_some]

theorem toList_literal (s : String) :
    (literal s).toList = '"' :: (s.toList.flatMap literalChar ++ ['"']) :=
  String.toList_ofList

theorem newline_not_mem_literal (s : String) : '\n' ∉ (literal s).toList := by
  rw [toList_literal]
  intro hmem
  rcases List.mem_cons.1 hmem with hquote | hmem
  · cases hquote
  · rcases List.mem_append.1 hmem with hmem | hquote
    · obtain ⟨c, -, hc⟩ := List.mem_flatMap.1 hmem
      exact newline_not_mem_literalChar c hc
    · cases List.mem_singleton.1 hquote

/-- The literal at the start of a text is read as it was written, whatever follows it. -/
theorem readLiteral?_literal_append (s t : String) : readLiteral? (literal s ++ t) = some (literal s, s) := by
  have htext : (literal s ++ t).toList = '"' :: (s.toList.flatMap literalChar ++ '"' :: t.toList) := by
    rw [String.toList_append, toList_literal]
    simp
  have hextent : (s.toList.flatMap literalChar ++ '"' :: t.toList).take
      ((s.toList.flatMap literalChar).length + 1) = s.toList.flatMap literalChar ++ ['"'] :=
    List.take_length_add_append 1
  rw [readLiteral?, htext]
  simp only [unescapedQuote?_flatMap_literalChar, hextent, List.take_left, unescape?_flatMap_literalChar,
    Option.bind_eq_bind, Option.bind_some, ← toList_literal, String.ofList_toList]
  rfl

/-- Every literal is delimited by its quotes and stands for the text that was written. Read from the opening quote on,
    the first quote that is not escaped is its last character, what stands between them is the text with its escapes,
    and no line feed stands in it; and so it is read at the start of any text. -/
theorem literal_delimited (s : String) :
    (∃ inner, (literal s).toList = '"' :: (inner ++ ['"']) ∧ unescapedQuote? (inner ++ ['"']) = some inner.length ∧
      unescape? inner = some s.toList) ∧
    '\n' ∉ (literal s).toList ∧
    ∀ t : String, readLiteral? (literal s ++ t) = some (literal s, s) := by
  refine ⟨⟨s.toList.flatMap literalChar, toList_literal s, ?_, ?_⟩, newline_not_mem_literal s,
    readLiteral?_literal_append s⟩
  · exact unescapedQuote?_flatMap_literalChar s.toList []
  · exact unescape?_flatMap_literalChar s.toList

-- A quote behind two backslashes ends a literal, and one behind three does not.
example : readLiteral? "\"a\\\\\"n\"" = some ("\"a\\\\\"", "a\\") ∧ readLiteral? "\"a\\\\\\\"n" = none := by
  cbv

end ScriptBytecode.Text
