/-
Interfaces, plugins, policies and what else stands on its own.
-/
import DomainModel.Build.Opening

namespace DomainModel.Build

/-- An interface; its role is that of a provider unless it says otherwise. -/
def api (input : BuildInput) (t : Tree) : Opening :=
  let name := t.nameOrEmpty
  let path := "apis." ++ name
  { records := [
      (path, input.locate (some t)),
      (path ++ ".name", input.locate (t.child? .name)),
      (path ++ ".type", input.locate (t.child? .apiType)),
      (path ++ ".role", input.locate (t.child? .apiRole))]
    scope := {
      kind := .api
      path := path
      node := [("name", .string name), ("type", .ofString? (t.childWord? .apiType)),
        ("role", .string ((t.childWord? .apiRole).getD "provider")),
        ("javadoc", .ofString? (Tree.docOf t.javadoc?)), ("options", .emptyMap),
        ("optionsList", .emptyList), ("config", .emptyMap)]
      place := ⟨.apis, none, name⟩ } }

/-- The literal that says whether a plugin inherits settings. -/
def inheritNode? (t : Tree) : Option Tree := (t.child? .pluginOptions).bind Tree.literal?

/-- A plugin; it inherits settings unless it says otherwise. -/
def plugin (input : BuildInput) (t : Tree) : Opening :=
  let name := t.nameOrEmpty
  let path := "plugins." ++ name
  let inherited := ((inheritNode? t).map Tree.scalar).getD (.bool true)
  { records := [
      (path, input.locate (some t)),
      (path ++ ".name", input.locate (t.child? .name)),
      (path ++ ".javadoc", input.locateToken t.javadoc?),
      (path ++ ".disabled", input.locate (t.child? .pluginDisabled)),
      (path ++ ".options", input.locate (t.child? .pluginOptions)),
      (path ++ ".options.inherit", input.locate (inheritNode? t))]
    scope := {
      kind := .plugin
      path := path
      node := [("name", .string name), ("javadoc", .ofString? (Tree.docOf t.javadoc?)),
        ("disabled", .bool (t.child? .pluginDisabled).isSome),
        ("options", .map [("inherit", inherited)]), ("config", .emptyMap),
        ("cliOptions", .emptyMap)]
      place := ⟨.plugins, none, name⟩ } }

/-- A setting with its value. -/
def settingEntry (t : Tree) : String × Value := (t.nameOrEmpty, t.settingValue)

/-- A flag of a plugin; its value is kept as text. -/
def cliOptionEntry (t : Tree) : String × Value :=
  (t.nameOrEmpty, .ofString? (t.literal?.map Tree.bareText))

/-- A policy of the aggregate that its block is for. -/
def policyEntry (block : Option Tree) (t : Tree) : String × Value :=
  (t.nameOrEmpty, .map [("name", .string t.nameOrEmpty),
    ("value", (t.literal?.map Tree.scalar).getD .null),
    ("aggregate", .ofString? (block.bind Tree.name?))])

/-- A constant; its value is kept as it is written. -/
def constantEntry (t : Tree) : String × Value :=
  (t.nameOrEmpty, .string ((t.literal?.map Tree.literalSource).getD ""))

end DomainModel.Build
