import Crosswalk.Main
import Crosswalk.Proofs.ClassFile.ByteExact
import Crosswalk.Proofs.ClassFile.Constants
import Crosswalk.Proofs.ClassFile.Layout
import Crosswalk.Proofs.ClassFile.PrefixFree
import Crosswalk.Proofs.ClassFile.RoundTrip
import Crosswalk.Proofs.ClassFile.Texts
import Crosswalk.Proofs.ClassFile.Tiling
import Crosswalk.Proofs.ClassTree.Annotations
import Crosswalk.Proofs.ClassTree.Bare
import Crosswalk.Proofs.ClassTree.Blank
import Crosswalk.Proofs.ClassTree.Determined
import Crosswalk.Proofs.ClassTree.FrameTags
import Crosswalk.Proofs.ClassTree.Frames
import Crosswalk.Proofs.ClassTree.InRange
import Crosswalk.Proofs.ClassTree.KeptSlots
import Crosswalk.Proofs.ClassTree.Members
import Crosswalk.Proofs.ClassTree.MethodBodies
import Crosswalk.Proofs.ClassTree.Needs
import Crosswalk.Proofs.ClassTree.Overflow
import Crosswalk.Proofs.ClassTree.Patching
import Crosswalk.Proofs.ClassTree.Readable
import Crosswalk.Proofs.ClassTree.Recut
import Crosswalk.Proofs.ClassTree.Rewriting
import Crosswalk.Proofs.ClassTree.RoundTrip
import Crosswalk.Proofs.ClassTree.Sizes
import Crosswalk.Proofs.CommandLine.Listing
import Crosswalk.Proofs.CommandLine.Output
import Crosswalk.Proofs.Files.Alike
import Crosswalk.Proofs.Files.Apart
import Crosswalk.Proofs.Files.Kept
import Crosswalk.Proofs.Files.Making
import Crosswalk.Proofs.Files.Paths
import Crosswalk.Proofs.Files.Saving
import Crosswalk.Proofs.Files.Segments
import Crosswalk.Proofs.Location.Archives
import Crosswalk.Proofs.Location.Collapsing
import Crosswalk.Proofs.Location.Escaping
import Crosswalk.Proofs.Location.Reading
import Crosswalk.Proofs.Mappings.Composing
import Crosswalk.Proofs.Mappings.Members
import Crosswalk.Proofs.Mappings.Reading
import Crosswalk.Proofs.Mappings.Resolving
import Crosswalk.Proofs.Mappings.Tables
import Crosswalk.Proofs.Mappings.Writing
import Crosswalk.Proofs.Names.DescriptorGrammar
import Crosswalk.Proofs.Names.DescriptorRewriting
import Crosswalk.Proofs.Names.Descriptors
import Crosswalk.Proofs.Names.Nesting
import Crosswalk.Proofs.Outcome
import Crosswalk.Proofs.Pool.Asking
import Crosswalk.Proofs.Pool.Building
import Crosswalk.Proofs.Pool.Calls
import Crosswalk.Proofs.Pool.Canonical
import Crosswalk.Proofs.Pool.Entries
import Crosswalk.Proofs.Pool.Full
import Crosswalk.Proofs.Pool.Growth
import Crosswalk.Proofs.Pool.Lookup
import Crosswalk.Proofs.Pool.Reseeding
import Crosswalk.Proofs.Pool.Room
import Crosswalk.Proofs.Pool.Seeding
import Crosswalk.Proofs.Provider.Confined
import Crosswalk.Proofs.Provider.Dumps
import Crosswalk.Proofs.Provider.Failures
import Crosswalk.Proofs.Provider.Finding
import Crosswalk.Proofs.Provider.Keeping
import Crosswalk.Proofs.Provider.Locations
import Crosswalk.Proofs.Provider.Once
import Crosswalk.Proofs.Provider.Order
import Crosswalk.Proofs.Provider.Patches
import Crosswalk.Proofs.Provider.Rack
import Crosswalk.Proofs.Provider.Ready
import Crosswalk.Proofs.Provider.Requests
import Crosswalk.Proofs.Provider.Resources
import Crosswalk.Proofs.Provider.Saves
import Crosswalk.Proofs.Provider.Settled
import Crosswalk.Proofs.Provider.Shelves
import Crosswalk.Proofs.Provider.Sources
import Crosswalk.Proofs.Provider.Steps
import Crosswalk.Proofs.Provider.Supertypes
import Crosswalk.Proofs.Provider.Twins
import Crosswalk.Proofs.Reader.Bodies
import Crosswalk.Proofs.Reader.Determined
import Crosswalk.Proofs.Reader.Reads
import Crosswalk.Proofs.Renaming.Composing
import Crosswalk.Proofs.Renaming.Linking
import Crosswalk.Proofs.Renaming.Lookups
import Crosswalk.Proofs.Renaming.Nearest
import Crosswalk.Proofs.Renaming.Nesting
import Crosswalk.Proofs.Renaming.ReadBack
import Crosswalk.Proofs.Renaming.Shape
import Crosswalk.Proofs.Renaming.Stability
import Crosswalk.Proofs.Renaming.Unchanged
import Crosswalk.Proofs.Renaming.Visiting
import Crosswalk.Proofs.Signature.Composing
import Crosswalk.Proofs.Signature.Copying
import Crosswalk.Proofs.Signature.Grammar
import Crosswalk.Proofs.Signature.Rewriting
import Crosswalk.Proofs.Signature.Scanning
import Crosswalk.Proofs.Slots.Editing
import Crosswalk.Proofs.Slots.Finding
import Crosswalk.Proofs.Slots.Layout
import Crosswalk.Proofs.Text.Lines
import Crosswalk.Proofs.Text.Modified
import Crosswalk.Proofs.Text.Sequences
import Crosswalk.Proofs.Text.Utf16
import Crosswalk.Proofs.Text.Utf8
