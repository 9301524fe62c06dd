import ZeroSchema.Schema.Observe
import ZeroSchema.Access.Prefix
import ZeroSchema.Mutation.Entries
import ZeroSchema.Mutation.Frame
import ZeroSchema.Mutation.Initialize
import ZeroSchema.Mutation.Clear
import ZeroSchema.Mutation.Views
import ZeroSchema.Mutation.Spell
import ZeroSchema.Mutation.Indifference
import ZeroSchema.Access.Layout
import ZeroSchema.Mutation.StringMut
import ZeroSchema.Analysis.Capacity
import ZeroSchema.Analysis.Collision
import ZeroSchema.Access.Range
import ZeroSchema.Schema.Padding
import ZeroSchema.Mutation.Rows
import ZeroSchema.Mutation.Interleave
import ZeroSchema.Mutation.Machines
import ZeroSchema.Analysis.Rebase
import ZeroSchema.Analysis.Crate
import ZeroSchema.Access.Buffer
