import DataModel.Text.Pattern

/-!
Tags: the types of nodes. A plain scalar without a tag has the type that its text looks like.
-/
namespace DataModel.Yaml
open DataModel.Text

namespace Tag

def standard (name : String) : String := "tag:yaml.org,2002:" ++ name

def null : String := standard "null"
def boolean : String := standard "bool"
def integer : String := standard "int"
def number : String := standard "float"
def binary : String := standard "binary"
def timestamp : String := standard "timestamp"
def orderedMap : String := standard "omap"
def pairs : String := standard "pairs"
def set : String := standard "set"
def text : String := standard "str"
def sequence : String := standard "seq"
def mapping : String := standard "map"
/-- The type of a key whose value is merged into its mapping. -/
def merge : String := standard "merge"
/-- The type of a key whose value stands for its mapping. -/
def value : String := standard "value"
def markup : String := standard "yaml"

end Tag

namespace Shape
open Pattern

def sign : Pattern := optional (anyOf "+-")
def digitOrGap : Pattern := anyOf "0123456789_"
def digits : Pattern := digit >> many digitOrGap
def exponent : Pattern := anyOf "eE" >> anyOf "+-" >> Pattern.some digit
/-- Parts of sixty. -/
def sixtieths : Pattern := Pattern.some (anyOf ":" >> optional (anyOf "012345") >> digit)

def boolean : Pattern :=
  oneOf ["yes", "Yes", "YES", "no", "No", "NO", "true", "True", "TRUE", "false", "False", "FALSE",
    "on", "On", "ON", "off", "Off", "OFF"]

def number : Pattern :=
  (sign >> digits >> anyOf "." >> many digitOrGap >> optional exponent)
    <|> (anyOf "." >> digits >> optional exponent)
    <|> (sign >> digits >> sixtieths >> anyOf "." >> many digitOrGap)
    <|> (sign >> oneOf [".inf", ".Inf", ".INF"])
    <|> oneOf [".nan", ".NaN", ".NAN"]

def integer : Pattern :=
  sign >> ((word "0b" >> Pattern.some (anyOf "01_"))
    <|> (word "0" >> Pattern.some (anyOf "01234567_"))
    <|> word "0"
    <|> (anyOf "123456789" >> many digitOrGap >> optional sixtieths)
    <|> (word "0x" >> Pattern.some (anyOf "0123456789abcdefABCDEF_")))

def merge : Pattern := word "<<"

def null : Pattern := oneOf ["~", "null", "Null", "NULL", ""]

def twoDigits : Pattern := digit >> digit
def oneOrTwoDigits : Pattern := digit >> optional digit
def year : Pattern := twoDigits >> twoDigits
def blanks : Pattern := many (anyOf " \t")

def timestamp : Pattern :=
  (year >> word "-" >> twoDigits >> word "-" >> twoDigits)
    <|> (year >> word "-" >> oneOrTwoDigits >> word "-" >> oneOrTwoDigits
      >> (anyOf "Tt" <|> Pattern.some (anyOf " \t")) >> oneOrTwoDigits
      >> word ":" >> twoDigits >> word ":" >> twoDigits >> optional (word "." >> many digit)
      >> optional (blanks >> (word "Z"
        <|> (anyOf "+-" >> oneOrTwoDigits >> optional (word ":" >> twoDigits)))))

def value : Pattern := word "="

def markup : Pattern := anyOf "!&*"

/-- The shapes with their tags, in the order in which they are tried. -/
def all : List (Pattern × String) :=
  [(boolean, Tag.boolean), (number, Tag.number), (integer, Tag.integer), (merge, Tag.merge),
    (null, Tag.null), (timestamp, Tag.timestamp), (value, Tag.value), (markup, Tag.markup)]

end Shape

/-- A text without the line feed at its end. -/
def withoutFinalBreak (text : List Char) : List Char :=
  if text.getLast? == some '\n' then text.dropLast else text

/-- The tag that an untagged plain text has. A line feed at its end does not count, unless it is
all there is. -/
def Tag.ofText (text : String) : String :=
  let cs := text.toList
  let shown := withoutFinalBreak cs
  if shown.isEmpty && !cs.isEmpty then Tag.text
  else ((Shape.all.find? fun p => p.1.accepts shown).map (·.2)).getD Tag.text

end DataModel.Yaml
