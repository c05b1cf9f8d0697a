import HashEq.Code.Text
import HashEq.Machine.Basic
import HashEq.Proofs.Machine.Consistency
import HashEq.Proofs.Synthesis.Typing
import HashEq.TypeTable.Add
import HashEq.Proofs.Machine.CallGraph
import HashEq.Proofs.Machine.Safety
import HashEq.Proofs.Machine.Stored
import HashEq.Proofs.Machine.StoredEquality
import HashEq.Proofs.Session.Cells
import HashEq.Proofs.Session.Answers
import HashEq.Proofs.Session.Sequences
import HashEq.Proofs.Utf8
import HashEq.Proofs.Session.Lists
import HashEq.Proofs.Session.Independence
import HashEq.Proofs.Machine.Answers
import HashEq.Proofs.Machine.Tables
import HashEq.Proofs.Session.Footprints
import HashEq.Proofs.Session.Nesting
import HashEq.Proofs.Machine.Counted
import HashEq.Proofs.Machine.PartialEquivalence
import HashEq.Proofs.Machine.Panics
import HashEq.Proofs.Machine.Listing
import HashEq.Proofs.TypeTable.Interning
import HashEq.Proofs.Machine.Accesses
import HashEq.Proofs.Once
import HashEq.Proofs.Machine.Unrolled
import HashEq.Proofs.TypeTable.NaturalLayout
import HashEq.Proofs.Machine.AlignedPlaces
import HashEq.Proofs.Machine.ConditionOrder
import HashEq.Proofs.Machine.LengthsFirst
import HashEq.Proofs.Code.Grouping
import HashEq.Proofs.Machine.StoreFrame
import HashEq.Proofs.Synthesis.InlineBudget
import HashEq.Proofs.Machine.Usable
import HashEq.Proofs.NameTable
import HashEq.Proofs.Synthesis.MemoryRuns
import HashEq.Proofs.TypeTable.Index
import HashEq.Proofs.Session.Names
