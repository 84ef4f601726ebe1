import DataModel.Resolution.Binding

/-!
Aliases of properties. Expanding replaces a placeholder, in its place, by copies of the properties
it selects; collapsing puts the placeholder back where its copies stand. A placeholder without
any copy leaves nothing behind.
-/
namespace DataModel.Resolution

/-- Puts back the placeholders of a list of properties; `seen` are those already there. -/
def collapseFrom (seen : List Placeholder) : List Property → List Property
  | [] => []
  | p :: rest =>
    match p.origin? with
    | none => p :: collapseFrom seen rest
    | some a =>
      if seen.contains a then collapseFrom seen rest
      else .alias a :: collapseFrom (a :: seen) rest

def collapse (ps : List Property) : List Property := collapseFrom [] ps

def collapseReturn (p : Property) : Property :=
  match p.origin? with
  | some a => .alias a
  | none => p

def collapseClass (_ : Model) (_ : Key) (c : Class) : Noting Class :=
  return { c with properties := collapse c.properties }

def collapseEndpoint (_ : Model) (e : Endpoint) : Noting Endpoint :=
  return { e with params := collapse e.params, returns := e.returns.map collapseReturn }

def collapseAll (s : Scope) (m : Model) : Noting Model := do
  let m ← forOwnClasses s collapseClass m
  forOwnEndpoints s collapseEndpoint m

/-- The first text that says something. -/
def firstSaid (a : Option String) (b : Option String) : Option String :=
  match a with
  | some text => if text == "" then b else some text
  | none => b

/-- The copy of a field that an alias puts in its place. It has the alias's name parts around the
field's own name, and whatever the alias says about label, comment, need and list; it is neither
key nor unique. -/
def copyField (a : Placeholder) (name : String) (location : Reference) : Property → Property
  | .regular p =>
    let listed : Option Key × Reference :=
      match a.listDomain, a.listDomainReference with
      | some k, some r => (some k, r)
      | _, _ => (p.domain, p.domainReference)
    .regular { p with
      name := a.leading ++ name ++ a.trailing
      label := firstSaid a.label p.label
      comment := (firstSaid a.comment (some p.comment)).getD p.comment
      location
      primaryKey := false
      unique := false
      required := a.required.getD p.required
      domain := listed.1
      domainReference := listed.2
      origin := some a }
  | .association p =>
    .association { p with
      givenName := some (a.leading ++ name ++ a.trailing)
      label := firstSaid a.label p.label
      comment := (firstSaid a.comment (some p.comment)).getD p.comment
      location
      primaryKey := false
      required := a.required.getD p.required
      origin := some a }
  | p => p

/-- The properties of a class with their names. -/
def named (m : Model) (ps : List Property) : Noting (List (String × Property)) :=
  ps.mapM fun p => return (← nameOf m p, p)

/-- The properties that an alias selects; none if it names one that the class does not have. -/
def select (s : Scope) (a : Placeholder) (className : String) (ps : List (String × Property)) :
    Noting (Option (List (String × Property))) := do
  let missing := (a.included ++ a.excluded).filter fun r => (ps.lookup r.name).isNone
  missing.forM fun r => report s (.missingProperty className) (.property (.alias a)) r
  if !missing.isEmpty then return none
  else if !a.included.isEmpty then
    return some (a.included.filterMap fun r => (ps.lookup r.name).map fun p => (r.name, p))
  else
    return some (ps.filter fun (name, _) => !(a.excluded.map (·.name)).contains name)

/-- The place of a copy: the name that includes it, or that of the alias. -/
def copyLocation (a : Placeholder) (name : String) : Reference :=
  (a.included.find? (·.name == name)).getD a.location

/-- The copies that an alias makes of its class. -/
def copies (s : Scope) (m : Model) (a : Placeholder) : Noting (Option (List Property)) := do
  match (← findClass s (.property (.alias a)) a.reference).bind m.class? with
  | none => return none
  | some c =>
    let selected ← select s a c.name (← named m c.properties)
    return selected.map fun ps =>
      (ps.filter fun (_, p) => p.isField).map fun (name, p) =>
        copyField a name (copyLocation a name) p

/-- Puts copies in the place of a placeholder. -/
def splice (a : Placeholder) (new : List Property) : List Property → List Property
  | [] => []
  | p :: rest => if p.alias? == some a then new ++ rest else p :: splice a new rest

/-- Where a placeholder stands. -/
inductive Site where
  | ofClass (k : Key)
  | ofParams (k : Key)
  | ofReturn (k : Key)

/-- The placeholders of a file's own entities, in order. -/
def placeholders (m : Model) (v : VersionId) : List (Site × Placeholder) :=
  let inClasses := (m.ownClasses v).flatMap fun k =>
    (((m.class? k).map (·.properties)).getD []).filterMap fun p =>
      p.alias?.map fun a => (Site.ofClass k, a)
  let inEndpoints := (m.ownEndpoints v).flatMap fun k =>
    match m.endpoint? k with
    | none => []
    | some e =>
      (e.params.filterMap fun p => p.alias?.map fun a => (Site.ofParams k, a))
        ++ (e.returns.bind (·.alias?)).toList.map fun a => (Site.ofReturn k, a)
  inClasses ++ inEndpoints

/-- Puts copies in the place of a placeholder; a return value is replaced by the first copy. -/
def Site.put (m : Model) (a : Placeholder) (new : List Property) : Site → Model
  | .ofClass k =>
    match m.class? k with
    | some c => m.setClass k { c with properties := splice a new c.properties }
    | none => m
  | .ofParams k =>
    match m.endpoint? k with
    | some e => m.setEndpoint k { e with params := splice a new e.params }
    | none => m
  | .ofReturn k =>
    match m.endpoint? k, new.head? with
    | some e, some p => m.setEndpoint k { e with returns := some p }
    | _, _ => m

def expandAll (s : Scope) (m : Model) : Noting Model :=
  (placeholders m s.self).foldlM (fun m (site, a) => do
    match ← copies s m a with
    | some new => return site.put m a new
    | none => return m) m

end DataModel.Resolution
