/-! Templates: text in which each pair of braces with nothing between them takes one argument. -/
namespace Scripting

/-- How many arguments a template takes. -/
def placeholders : List Char → Nat
  | '\x7b' :: '\x7d' :: rest => placeholders rest + 1
  | _ :: rest => placeholders rest
  | [] => 0

/-- Fills the placeholders of a template from left to right, after what is already written. There
may be more texts than placeholders, but not fewer. -/
def fillTemplate (written : String) : List Char → List String → Option String
  | '\x7b' :: '\x7d' :: rest, texts =>
    match texts with
    | [] => none
    | t :: texts => fillTemplate (written ++ t) rest texts
  | c :: rest, texts => fillTemplate (written.push c) rest texts
  | [], _ => some written

end Scripting
