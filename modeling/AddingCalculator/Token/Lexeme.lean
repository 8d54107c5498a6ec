import AddingCalculator.Text.Blank
import AddingCalculator.Token

/-!
# Lexemes

A text is cut from the left into lexemes, each as long as possible: a blank, a mark of one character, a run of
digits, or a run of digits with a point and further digits. A character that begins none of these is a lexeme of its
own. The lexemes of a text hold all of its characters.
-/

namespace AddingCalculator

inductive Lexeme where
  | blank (c : Char)
  | mark (c : Char) (kind : Token.Kind)
  | digits (run : List Char)
  | point (whole fraction : List Char)
  | stray (c : Char)
  deriving DecidableEq

namespace Lexeme

def chars : Lexeme → List Char
  | blank c => [c]
  | mark c _ => [c]
  | digits run => run
  | point whole fraction => whole ++ '.' :: fraction
  | stray c => [c]

def markKind? (c : Char) : Option Token.Kind :=
  match c with
  | 'f' => some .floatDeclaration
  | 'i' => some .integerDeclaration
  | 'p' => some .print
  | '=' => some .assign
  | '+' => some .plus
  | '-' => some .minus
  | '$' => some .close
  | _ => if isVariable c then some .name else none

def single (c : Char) : Lexeme :=
  if isBlank c then blank c
  else match markKind? c with
    | some kind => mark c kind
    | none => stray c

def takeNumber (cs : List Char) : Lexeme × List Char :=
  match cs.dropWhile Char.isDigit with
  | '.' :: rest => (point (cs.takeWhile Char.isDigit) (rest.takeWhile Char.isDigit), rest.dropWhile Char.isDigit)
  | rest => (digits (cs.takeWhile Char.isDigit), rest)

def take (c : Char) (cs : List Char) : Lexeme × List Char :=
  if c.isDigit then takeNumber (c :: cs) else (single c, cs)

theorem takeNumber_chars (cs : List Char) : (takeNumber cs).1.chars ++ (takeNumber cs).2 = cs := by
  unfold takeNumber
  split
  · rename_i rest h
    simp only [chars, List.append_assoc, List.cons_append, List.takeWhile_append_dropWhile, ← h]
  · simp only [chars, List.takeWhile_append_dropWhile]

theorem chars_single (c : Char) : (single c).chars = [c] := by
  unfold single
  split
  · rfl
  · split <;> rfl

theorem take_chars (c : Char) (cs : List Char) : (take c cs).1.chars ++ (take c cs).2 = c :: cs := by
  unfold take
  split
  · exact takeNumber_chars (c :: cs)
  · simp [chars_single]

theorem take_chars_ne_nil (c : Char) (cs : List Char) : (take c cs).1.chars ≠ [] := by
  unfold take
  split
  · rename_i hc
    unfold takeNumber
    split <;> simp [chars, hc]
  · simp [chars_single]

theorem take_length (c : Char) (cs : List Char) : (take c cs).2.length < (c :: cs).length := by
  have h := congrArg List.length (take_chars c cs)
  have hpos := List.length_pos_iff.mpr (take_chars_ne_nil c cs)
  rw [List.length_append] at h
  omega

def split : List Char → List Lexeme
  | [] => []
  | c :: cs => (take c cs).1 :: split (take c cs).2
termination_by cs => cs.length
decreasing_by exact take_length c cs

theorem flatMap_chars_split (cs : List Char) : (split cs).flatMap chars = cs := by
  fun_induction split cs with
  | case1 => rfl
  | case2 c cs ih => rw [List.flatMap_cons, ih, take_chars]

end Lexeme

end AddingCalculator
