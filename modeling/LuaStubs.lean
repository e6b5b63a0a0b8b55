import LuaStubs.Settings.File
import LuaStubs.Stub.Document
import LuaStubs.Proofs.Emission
import LuaStubs.Proofs.Tables.History
import LuaStubs.Proofs.Tables.Runs
import LuaStubs.Proofs.Tables.Chronicle
import LuaStubs.Proofs.Fields
import LuaStubs.Proofs.Links.Comments
import LuaStubs.Proofs.Lowering.Reach
import LuaStubs.Proofs.Catalogs
import LuaStubs.Proofs.Lowering.Depth
import LuaStubs.Proofs.Success.Document
import LuaStubs.Proofs.Arrangement.Document
import LuaStubs.Proofs.Prose.Document
import LuaStubs.Proofs.Outline.Document
import LuaStubs.Proofs.Naming.Declarations
import LuaStubs.Proofs.Loading.Document
import LuaStubs.Proofs.Lowering.Document
import LuaStubs.Proofs.Spelling.Reading
import LuaStubs.Proofs.Spelling.Meaning
import LuaStubs.Proofs.Spelling.Written
import LuaStubs.Proofs.Links.Reached
import LuaStubs.Proofs.Address.Template
import LuaStubs.Proofs.Address.Calm
import LuaStubs.Proofs.Address.Runs
import LuaStubs.Proofs.Address.Texts
import LuaStubs.Proofs.Address.Comments
import LuaStubs.Proofs.Address.Types
import LuaStubs.Proofs.Address.Entries
import LuaStubs.Proofs.Address.Document
import LuaStubs.Proofs.Lowering.Enough
import LuaStubs.Proofs.Links.Shown
import LuaStubs.Proofs.Lowering.Again
import LuaStubs.Proofs.Lowering.Elsewhere
import LuaStubs.Proofs.Tables.EitherOrder
import LuaStubs.Proofs.Merging
import LuaStubs.Proofs.Links.Stable
import LuaStubs.Proofs.Links.Fences
import LuaStubs.Proofs.Constants.Chains
import LuaStubs.Proofs.Constants.Lookups
import LuaStubs.Proofs.Json.Refusals
import LuaStubs.Proofs.Loading.Checked
import LuaStubs.Proofs.Outline.Functions
import LuaStubs.Proofs.HardBreaks
import LuaStubs.Proofs.Contents
import LuaStubs.Proofs.Links.Traced
import LuaStubs.Proofs.Positions
import LuaStubs.Proofs.Settings
import LuaStubs.Proofs.Identifiers
import LuaStubs.Proofs.Backlogs
