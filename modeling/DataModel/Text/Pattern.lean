/-!
Patterns of texts. A text matches a pattern if what the pattern becomes after each of its characters
accepts the empty text in the end.
-/
namespace DataModel.Text

inductive Pattern where
  | nothing
  | empty
  | one (allowed : Char → Bool)
  | either (p q : Pattern)
  | both (p q : Pattern)
  | many (p : Pattern)

namespace Pattern

instance : AndThen Pattern := ⟨fun p q => .both p (q ())⟩
instance : OrElse Pattern := ⟨fun p q => .either p (q ())⟩

def anyOf (chars : String) : Pattern := .one chars.toList.contains

def word (s : String) : Pattern :=
  s.toList.foldr (fun c p => .both (.one (· == c)) p) .empty

def oneOf (words : List String) : Pattern :=
  words.foldr (fun w p => .either (word w) p) .nothing

def optional (p : Pattern) : Pattern := .either p .empty

def some (p : Pattern) : Pattern := .both p (.many p)

def digit : Pattern := .one fun c => '0' ≤ c && c ≤ '9'

def acceptsEmpty : Pattern → Bool
  | .nothing | .one _ => false
  | .empty | .many _ => true
  | .either p q => p.acceptsEmpty || q.acceptsEmpty
  | .both p q => p.acceptsEmpty && q.acceptsEmpty

/-- Both parts in turn; what cannot match is nothing at all. -/
def join : Pattern → Pattern → Pattern
  | .nothing, _ => .nothing
  | .empty, q => q
  | p, q => .both p q

def orElse : Pattern → Pattern → Pattern
  | .nothing, q => q
  | p, .nothing => p
  | p, q => .either p q

/-- What is left of a pattern after a character. -/
def after (c : Char) : Pattern → Pattern
  | .nothing | .empty => .nothing
  | .one allowed => if allowed c then .empty else .nothing
  | .either p q => orElse (p.after c) (q.after c)
  | .both p q =>
    if p.acceptsEmpty then orElse (join (p.after c) q) (q.after c) else join (p.after c) q
  | .many p => join (p.after c) (.many p)

def accepts : Pattern → List Char → Bool
  | p, [] => p.acceptsEmpty
  | .nothing, _ => false
  | p, c :: rest => (p.after c).accepts rest

end Pattern
end DataModel.Text
