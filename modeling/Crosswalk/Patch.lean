import Crosswalk.ClassTree.Basic
import Crosswalk.Settings

/-!
# Patches

What is changed about a class, or found out about it, once it has its new names. The methods of a
mixin become public in a development environment, and a public class that can be instantiated and
extends one of the known base classes is taken for a configuration screen.
-/

namespace Crosswalk

/-- Whether a method of a mixin should be public: it has an instance, and either no annotation that
is kept for the runtime or the one that marks a replacement. -/
def MethodTree.isWidened (s : Settings) (m : MethodTree) : Bool :=
  !m.access.has Access.isStatic && (m.metadata.visible.isEmpty || m.metadata.hasVisible s.overwrite)

/-- A method of a mixin as it should be. -/
def MethodTree.widen (s : Settings) (m : MethodTree) : MethodTree :=
  if m.isWidened s then { m with access := m.access.withVisibility Access.isPublic } else m

namespace ClassTree

/-- Whether a class is a mixin. -/
def isMixin (s : Settings) (c : ClassTree) : Bool :=
  c.metadata.hasInvisible s.mixin

/-- A class with the patches for development, where they apply. -/
def widen (s : Settings) (c : ClassTree) : ClassTree :=
  if s.development && c.isMixin s then { c with methods := c.methods.map (·.widen s) } else c

/-- The number of methods whose flags the patches for development change. -/
def widenedCount (s : Settings) (c : ClassTree) : Nat :=
  if s.development && c.isMixin s then
    c.methods.countP fun m => (m.widen s).access != m.access
  else
    0

/-- Whether a class looks like a configuration screen. -/
def isScreen (s : Settings) (c : ClassTree) : Bool :=
  !c.isMixin s && c.access.has Access.isPublic && !c.access.has Access.isAbstract &&
    c.superName.any fun name => s.screenBases.contains name

end ClassTree

end Crosswalk
