import Crosswalk.Log
import Crosswalk.Mappings.Basic

/-!
# Settings

What a provider of classes can be told: whether patches for development apply, where classes and
resources are mirrored and handed out, and which annotations and base classes count.
-/

namespace Crosswalk

/-- What a provider can be told. -/
structure Settings where
  /-- Whether the patches for a development environment apply. -/
  development : Bool
  /-- Where classes and resources that are served are mirrored, if anywhere. -/
  dumpDirectory : Option String
  /-- Where class files that are asked for as files are put. -/
  tempDirectory : String
  /-- The annotation that marks a mixin. -/
  mixin : String
  /-- The annotation that marks a method of a mixin which replaces another one. -/
  overwrite : String
  /-- The classes whose direct subclasses are configuration screens. -/
  screenBases : List String
  deriving DecidableEq, Inhabited

namespace Settings

/-- The settings that hold where nothing else is said. -/
def standard (tempDirectory : String) : Settings where
  development := false
  dumpDirectory := some ".litecompat.out"
  tempDirectory := tempDirectory
  mixin := "Lorg/spongepowered/asm/mixin/Mixin;"
  overwrite := "Lorg/spongepowered/asm/mixin/Overwrite;"
  screenBases := []

/-- The base classes of configuration screens with their namespaces. -/
def knownScreenBases : List (String × String) :=
  [("named", "fi/dy/masa/malilib/gui/GuiConfigsBase"), ("intermediary", "net.minecraft.class_5641")]

/-- The name of a base class at runtime. A class of a library outside the game is never renamed, and
its name stands in the namespace `named`. -/
def runtimeName? (resolver : Resolver) (space name : String) : Option String :=
  if space = "named" then some (ClassName.normalize name).text else resolver space name

/-- What is reported about a base class without a name at runtime. -/
def unresolved (name : String) : Record :=
  ⟨.debug, s!"Config GUI base class {name} does not resolve"⟩

/-- Adds a base class, or reports that it has no name. -/
def addScreenBase (resolver : Resolver) (s : Settings × List Record) (base : String × String) :
    Settings × List Record :=
  match runtimeName? resolver base.1 base.2 with
  | some name => ({ s.1 with screenBases := s.1.screenBases.insert name }, s.2)
  | none => (s.1, s.2 ++ [unresolved base.2])

/-- Adds the known base classes of configuration screens. -/
def resolveScreenBases (settings : Settings) (resolver : Resolver) : Settings × List Record :=
  knownScreenBases.foldl (addScreenBase resolver) (settings, [])

end Settings

end Crosswalk
