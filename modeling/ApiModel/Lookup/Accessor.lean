import ApiModel.Lookup.Resolve

/-!
Adding attributes to structs and classes. With an attribute come the operation that reads it and, if
it can be written, the one that writes it.
-/

namespace ApiModel.Model

/-- Adds an attribute and its accessors, and returns the stored form. -/
def addAttribute (scope : TypeId) (a : Attribute) : ModelM Attribute := do
  let scope ← memberScope scope a.entity.scopePath fun _ => true
  let m ← get
  if !(m.node scope).isRecord then throw (.invalidScope (m.fullName scope) "attributes")
  if (m.scope? scope).any fun s => s.attributes.contains a.name then
    throw (.duplicateDeclaration "attribute" a.name (m.fullName scope))
  let getter ← ModelM.ofExcept (Operation.getter a)
  let setter ←
    if a.isWritable then
      let void ← lookupType .root "void" .local
      some <$> ModelM.ofExcept (Operation.setter a void)
    else pure none
  let m ← get
  let owned := { a with entity := a.entity.setOwner (some scope) (m.scopePath scope) }
  set (m.modifyNode scope (·.mapScope fun s =>
    { s with attributes := s.attributes.insert owned.name owned }))
  let _ ← addOperation scope getter
  if let some setter := setter then
    let _ ← addOperation scope setter
  return owned

end ApiModel.Model
