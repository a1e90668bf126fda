import PhraseLang.Text.Position
import PhraseLang.Token

/-! Listings: the tokens of a source, and the keyword phrases. -/
namespace PhraseLang

/-- Where a token begins, as `line:column` and a tab. -/
def Token.place (source : List Char) (t : Token) : String :=
  let (line, column) := Text.lineColumn source t.span.start
  toString line ++ ":" ++ toString column ++ "\t"

def Token.line (source : List Char) (places : Bool) (t : Token) : String :=
  (if places then t.place source else "") ++ t.display ++ "\n"

def tokenListing (source : String) (tokens : List Token) (places : Bool) : String :=
  String.join (tokens.map (Token.line source.toList places))

def column (width : Nat) (text : String) : String :=
  text ++ String.ofList (List.replicate (width - text.length) ' ')

/-- One line for each keyword, the longest phrase first. -/
def keywordListing : String :=
  String.join (Keyword.longestFirst.map fun k =>
    column 12 k.name ++ " " ++ column 8 k.category.label ++ " " ++ column 9 k.stability.label ++
      " " ++ k.phrase ++ "\n")

end PhraseLang
