import ChainedTable.Arena.Text
import ChainedTable.Journal
import ChainedTable.Literal
import ChainedTable.Registry
import ChainedTable.Statistics.Text
import ChainedTable.Table.Listing
import ChainedTable.Proofs.Arena.Reading
import ChainedTable.Proofs.Arena.Walks
import ChainedTable.Proofs.Arena.Recycling
import ChainedTable.Proofs.Table.Arrangement
import ChainedTable.Proofs.Table.Unlinking
import ChainedTable.Proofs.Table.Migration
import ChainedTable.Proofs.Ledger
import ChainedTable.Proofs.Table.Representation
import ChainedTable.Proofs.Table.Counted
import ChainedTable.Proofs.Table.Stock
import ChainedTable.Proofs.Session
import ChainedTable.Proofs.Simulation
import ChainedTable.Proofs.Arena.Accounting
import ChainedTable.Proofs.Table.Calls
import ChainedTable.Proofs.Verification
import ChainedTable.Proofs.Lifetime
import ChainedTable.Arena.Call
import ChainedTable.Proofs.Arena.Runs
import ChainedTable.Proofs.Arena.Inventory
import ChainedTable.Proofs.Arena.Blocks
import ChainedTable.Proofs.Arena.Loops
import ChainedTable.Proofs.Table.Checks
import ChainedTable.Proofs.Failure
import ChainedTable.Proofs.Resizing
import ChainedTable.Proofs.Bounds
import ChainedTable.Proofs.Cycles
import ChainedTable.Proofs.Directory
import ChainedTable.Proofs.Registry
import ChainedTable.Proofs.Growth
import ChainedTable.Proofs.Splicing
import ChainedTable.Proofs.DeadEnds
import ChainedTable.Proofs.Table.Turnover
import ChainedTable.Proofs.Exchange
import ChainedTable.Proofs.Restoration
import ChainedTable.Proofs.Arena.Rounding
import ChainedTable.Proofs.Regrouping
import ChainedTable.Proofs.Linking
import ChainedTable.Proofs.Statistics.Doubles
import ChainedTable.Proofs.Statistics.Footprint
import ChainedTable.Proofs.Counters
import ChainedTable.Proofs.Listing
import ChainedTable.Proofs.Packing
