import PackageOutline.Main
import PackageOutline.Proofs.Description.Building
import PackageOutline.Proofs.Description.Lenience
import PackageOutline.Proofs.Description.Proper
import PackageOutline.Proofs.Disk.Changes
import PackageOutline.Proofs.Disk.Exact
import PackageOutline.Proofs.Disk.Names
import PackageOutline.Proofs.Disk.Operations
import PackageOutline.Proofs.Disk.PassedOver
import PackageOutline.Proofs.Disk.Places
import PackageOutline.Proofs.Disk.Reading
import PackageOutline.Proofs.Disk.Rereading
import PackageOutline.Proofs.Disk.Resuming
import PackageOutline.Proofs.Disk.ShortCut
import PackageOutline.Proofs.Disk.Tidy
import PackageOutline.Proofs.Disk.Vacant
import PackageOutline.Proofs.Disk.Views
import PackageOutline.Proofs.Disk.WriteRead
import PackageOutline.Proofs.Disk.Writing
import PackageOutline.Proofs.Entries
import PackageOutline.Proofs.Exec
import PackageOutline.Proofs.Outline.Accepted
import PackageOutline.Proofs.Outline.Address
import PackageOutline.Proofs.Outline.AllOrNothing
import PackageOutline.Proofs.Outline.Arena
import PackageOutline.Proofs.Outline.Blind
import PackageOutline.Proofs.Outline.Calls
import PackageOutline.Proofs.Outline.Chains
import PackageOutline.Proofs.Outline.DirtyItems
import PackageOutline.Proofs.Outline.Document
import PackageOutline.Proofs.Outline.EditedImages
import PackageOutline.Proofs.Outline.Failing
import PackageOutline.Proofs.Outline.Fresh
import PackageOutline.Proofs.Outline.Generations
import PackageOutline.Proofs.Outline.Handles
import PackageOutline.Proofs.Outline.Images
import PackageOutline.Proofs.Outline.Inheriting
import PackageOutline.Proofs.Outline.Inside
import PackageOutline.Proofs.Outline.KeptContents
import PackageOutline.Proofs.Outline.Making
import PackageOutline.Proofs.Outline.Marks
import PackageOutline.Proofs.Outline.Memory
import PackageOutline.Proofs.Outline.Objects
import PackageOutline.Proofs.Outline.OnDocument
import PackageOutline.Proofs.Outline.PathEdits
import PackageOutline.Proofs.Outline.Picture
import PackageOutline.Proofs.Outline.Plain
import PackageOutline.Proofs.Outline.Recalling
import PackageOutline.Proofs.Outline.Refreshing
import PackageOutline.Proofs.Outline.Refused
import PackageOutline.Proofs.Outline.RelativePaths
import PackageOutline.Proofs.Outline.Releasing
import PackageOutline.Proofs.Outline.Removal
import PackageOutline.Proofs.Outline.RenamedPaths
import PackageOutline.Proofs.Outline.Reordering
import PackageOutline.Proofs.Outline.Reusing
import PackageOutline.Proofs.Outline.Rising
import PackageOutline.Proofs.Outline.Runs
import PackageOutline.Proofs.Outline.Saving
import PackageOutline.Proofs.Outline.Shape
import PackageOutline.Proofs.Outline.Sharing
import PackageOutline.Proofs.Outline.Showing
import PackageOutline.Proofs.Outline.Soundness
import PackageOutline.Proofs.Outline.Tended
import PackageOutline.Proofs.Outline.Touched
import PackageOutline.Proofs.Outline.Traversal
import PackageOutline.Proofs.Outline.Walk
import PackageOutline.Proofs.Outline.WellFormed
import PackageOutline.Proofs.Project.Reload
import PackageOutline.Proofs.Project.Retrying
import PackageOutline.Proofs.Project.Runs
import PackageOutline.Proofs.Project.Saves
import PackageOutline.Proofs.Project.Snapshots
import PackageOutline.Proofs.Project.Undeclared
import PackageOutline.Proofs.Project.Updating
import PackageOutline.Proofs.Snapshot.Codec
import PackageOutline.Proofs.Snapshot.Frame
import PackageOutline.Proofs.Snapshot.RoundTrip
import PackageOutline.Proofs.Snapshot.Truncation
import PackageOutline.Proofs.Snapshot.Varint
import PackageOutline.Proofs.Text.Order
import PackageOutline.Proofs.Text.Utf8
import PackageOutline.Proofs.Tree.Collected
import PackageOutline.Proofs.Tree.Files
import PackageOutline.Proofs.Tree.Inserting
import PackageOutline.Proofs.Tree.InsertionOrder
import PackageOutline.Proofs.Tree.Listing
import PackageOutline.Proofs.Tree.Parts
import PackageOutline.Proofs.Tree.PathEdits
import PackageOutline.Proofs.Tree.Stream
