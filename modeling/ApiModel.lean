import ApiModel.Config.Load
import ApiModel.Diagnostic
import ApiModel.Lookup.Accessor
import ApiModel.Lookup.Default
import ApiModel.Model.Create
import ApiModel.Model.Export
import ApiModel.Model.Listing
import ApiModel.Proofs.AbsoluteNames
import ApiModel.Proofs.Accessors
import ApiModel.Proofs.Ancestry
import ApiModel.Proofs.ArgumentLists
import ApiModel.Proofs.Callees
import ApiModel.Proofs.Completing
import ApiModel.Proofs.Composing
import ApiModel.Proofs.Concrete
import ApiModel.Proofs.ConstantValues
import ApiModel.Proofs.Defaults
import ApiModel.Proofs.Deleting
import ApiModel.Proofs.ExportNames
import ApiModel.Proofs.Flattening
import ApiModel.Proofs.FreeNames
import ApiModel.Proofs.HookLife
import ApiModel.Proofs.Inheritance
import ApiModel.Proofs.InheritedAttributes
import ApiModel.Proofs.InheritedNames
import ApiModel.Proofs.Landing
import ApiModel.Proofs.Listing
import ApiModel.Proofs.Literals
import ApiModel.Proofs.MapKeys
import ApiModel.Proofs.Namespaces
import ApiModel.Proofs.Parents
import ApiModel.Proofs.PathParts
import ApiModel.Proofs.Paths
import ApiModel.Proofs.Printing
import ApiModel.Proofs.QuerySpelling
import ApiModel.Proofs.Registration
import ApiModel.Proofs.Relinking
import ApiModel.Proofs.Remembering
import ApiModel.Proofs.Repeating
import ApiModel.Proofs.StoredNames
import ApiModel.Proofs.Terminating
import ApiModel.Proofs.Traversing
import ApiModel.Proofs.TypeNames
import ApiModel.Proofs.Undisturbed
import ApiModel.Proofs.Unqualified
