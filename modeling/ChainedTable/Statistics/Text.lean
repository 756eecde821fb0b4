import ChainedTable.Statistics.Basic
import ChainedTable.Text.Fixed

set_option autoImplicit false

namespace ChainedTable

namespace Statistics

def literalMean (s : Statistics) : Float :=
  if s.numberOfEntries = 0 then 0
  else countFloat s.literalBytes / countFloat s.numberOfEntries

def footprintLine (label count : String) (bytes : Nat) (rest : String) : String :=
  label ++ ": " ++ alignRight 9 count ++ " = " ++ column bytes ++ " bytes" ++ rest

def literalLines (s : Statistics) : List String :=
  if s.literalBytes = 0 then []
  else
    [footprintLine "Number of literals      " (toString s.numberOfEntries) s.literalBytes
      (", avg " ++ fixedColumn 7 s.literalMean)]

def sizeLines (s : Statistics) : List String :=
  [footprintLine "Number of buckets       " (toString s.numberOfBuckets) s.bucketBytes
      (", each " ++ toString s.bucketSize),
    footprintLine "Number of entries       " (toString s.numberOfEntries) s.entryBytes
      (", each " ++ toString s.entrySize)]
  ++ s.literalLines
  ++ [footprintLine "Total footprint         " "" s.totalFootprint ""]

def chainLines (s : Statistics) : List String :=
  ["Average bucket size     : " ++ fixedColumn 9 s.summary.mean,
    "Variance of bucket size : " ++ fixedColumn 9 s.summary.variance,
    "Std. dev. of bucket size: " ++ fixedColumn 9 s.summary.deviation,
    "Maximum bucket size     : " ++ column (floatCount s.summary.maximum)]

def isUsed (s : Statistics) : Bool := s.addedItems != 0 || s.removedItems != 0

def trafficLine (s : Statistics) : String :=
  "Entries added/removed   : " ++ column s.addedItems ++ " / " ++ column s.removedItems

def rateLine (s : Statistics) : String :=
  "Add/remove rate         : " ++ fixedColumn 9 s.addRate ++ " / " ++ fixedColumn 9 s.removeRate
    ++ " per second"

def steadyLines (name : String) (s : Statistics) : List String :=
  (name ++ " statistics:") :: s.sizeLines ++ s.chainLines
    ++ if s.isUsed then [s.trafficLine] else []

def lines (name : String) (s : Statistics) : List String :=
  s.steadyLines name ++ if s.isUsed then [s.rateLine] else []

end Statistics

def unlines (ls : List String) : String := String.join (ls.map fun l => l ++ "\n")

def Statistics.text (name : String) (s : Statistics) : String := unlines (s.lines name)

/-- The printed form without the rates, which depend on a clock. -/
def Statistics.steadyText (name : String) (s : Statistics) : String := unlines (s.steadyLines name)

end ChainedTable
