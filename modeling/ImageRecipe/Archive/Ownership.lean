import ImageRecipe.Text.Blank
import ImageRecipe.Text.Number
import ImageRecipe.Text.Split

/-! Who owns the files of a layer: a user and a group, both by number or both by name. -/

namespace ImageRecipe

inductive Ownership where
  | root
  | numeric (uid gid : Nat)
  | named (user group : String)
  deriving DecidableEq, Repr

namespace Ownership

/-- The owner that a text gives as a user, or as a user, a colon and a group. No text or a blank one means
root, and a missing group repeats the user. -/
def parse (spec : Option String) : Except String Ownership :=
  let spec := Text.trim (spec.getD "")
  let cs := spec.toList
  if cs.isEmpty then .ok root
  else
    let (user, group) := (Text.cutFirst ':' cs).getD (cs, cs)
    if user.isEmpty || group.isEmpty then .error spec
    else
      match Text.parseUnsigned Text.limit64 user, Text.parseUnsigned Text.limit64 group with
      | some uid, some gid => .ok (numeric uid gid)
      | none, none => .ok (named (String.ofList user) (String.ofList group))
      | _, _ => .error spec

end Ownership

end ImageRecipe
