import ChainedTable.Table.Basic

set_option autoImplicit false

namespace ChainedTable

/-- A machine that reserves less than `2 ^ 50` buckets at once. -/
instance Memory.machine : Memory := .below 0x4000000000000 (by decide)

end ChainedTable
