import DataModel.Resolution.Scope

/-!
Binding: every reference of a file's own entities is bound to the entity it names, or reported.
Nothing but the bound keys changes, and only in the resolved file.
-/
namespace DataModel.Resolution

/-- Changes the own classes of the resolved file one after the other. -/
def forOwnClasses (s : Scope) (f : Model → Key → Class → Noting Class) (m : Model) :
    Noting Model :=
  (m.ownClasses s.self).foldlM (fun m k => do
    match m.class? k with
    | some c => return m.setClass k (← f m k c)
    | none => return m) m

def forOwnEndpoints (s : Scope) (f : Model → Endpoint → Noting Endpoint) (m : Model) :
    Noting Model :=
  (m.ownEndpoints s.self).foldlM (fun m k => do
    match m.endpoint? k with
    | some e => return m.setEndpoint k (← f m e)
    | none => return m) m

def bindParent (s : Scope) (_ : Model) (k : Key) (c : Class) : Noting Class := do
  match c.parentReference with
  | none => return c
  | some r => return { c with parent := ← findClass s (.class k) r }

def bindDecorators (s : Scope) (_ : Model) (k : Key) (c : Class) : Noting Class := do
  let found ← c.decoratorReferences.mapM (findDecorator s (.class k))
  return { c with decorators := found.filterMap id }

/-- An association is bound only to a class with exactly one primary key. -/
def bindTarget (m : Model) (s : Scope) (a : Association) : Noting Association := do
  let unbound := { a with target := none }
  match ← findClass s (.property (.association unbound)) a.reference with
  | none => return unbound
  | some k =>
    let keys := ((m.class? k).map (·.primaryKeys)).getD []
    if keys.length == 1 then return { a with target := some k }
    else
      report s .associationKey (.property (.association unbound)) a.reference
      return unbound

def bindProperty (m : Model) (s : Scope) : Property → Noting Property
  | .regular p => do
    let domain ← findDomain m s (.property (.regular p)) p.domainReference
    return .regular { p with domain }
  | .association a => return .association (← bindTarget m s a)
  | .composition c => do
    let subject := Subject.property (.composition c)
    let target ← findClass s subject c.reference
    match c.domainKindReference with
    | none => return .composition { c with target }
    | some r => return .composition { c with target, domainKind := ← findDomain m s subject r }
  | .alias p => do
    match p.listDomainReference with
    | none => return .alias p
    | some r => return .alias { p with listDomain := ← findDomain m s (.property (.alias p)) r }

def bindClassProperties (s : Scope) (m : Model) (_ : Key) (c : Class) : Noting Class := do
  return { c with properties := ← c.properties.mapM (bindProperty m s) }

def bindEndpointProperties (s : Scope) (m : Model) (e : Endpoint) : Noting Endpoint := do
  let params ← e.params.mapM (bindProperty m s)
  return { e with params, returns := ← e.returns.mapM (bindProperty m s) }

/-- The converters of a file's domains keep the targets that are found. -/
def bindConverters (s : Scope) (m : Model) : Noting Model := do
  let domains := ((m.file? s.self).map (·.domains)).getD []
  let bound ← domains.zipIdx.mapM fun (d, i) => do
    let converters ← d.converters.mapM fun c => do
      let found ← c.targetReferences.mapM (findDomain m s (.domain ⟨s.self, i⟩))
      return { c with targets := found.filterMap id }
    return { d with converters }
  return m.modifyFile s.self fun f => { f with domains := bound }

/-- The used files that are not there. -/
def missingUses (m : Model) (s : Scope) : List Reference :=
  (m.uses s.self).filter fun use => !s.dependencies.has use.name

def checkUses (m : Model) (s : Scope) : Noting Unit :=
  (missingUses m s).forM fun use => report s .missingFile (.file s.self) use

def bind (s : Scope) (m : Model) : Noting Model := do
  let m ← forOwnClasses s (bindParent s) m
  let m ← forOwnClasses s (bindDecorators s) m
  let m ← forOwnClasses s (bindClassProperties s) m
  let m ← forOwnEndpoints s (bindEndpointProperties s) m
  bindConverters s m

end DataModel.Resolution
