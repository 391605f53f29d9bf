import PagedTable.Main
import PagedTable.Node.Lemmas
import PagedTable.Proofs.Pager.View
import PagedTable.Proofs.Node.Header
import PagedTable.Proofs.Node.Search
import PagedTable.Proofs.Node.Rank
import PagedTable.Proofs.PageTree.Basic
import PagedTable.Proofs.PageTree.Held
import PagedTable.Proofs.PageTree.Reach
import PagedTable.Proofs.PageTree.Crumb
import PagedTable.Proofs.Tree.Check
import PagedTable.Proofs.Tree.Search
import PagedTable.Proofs.PageTree.Graft
import PagedTable.Proofs.Pager.Change
import PagedTable.Proofs.Tree.Split
import PagedTable.Proofs.Tree.Footprint
import PagedTable.Proofs.Tree.Insert
import PagedTable.Proofs.Pager.Flush
import PagedTable.Proofs.Pager.Opening
import PagedTable.Proofs.Pager.Reachable
import PagedTable.Proofs.Pager.Faithful
import PagedTable.Proofs.Action.Respects
import PagedTable.Proofs.Pager.Access
import PagedTable.Proofs.Tree.Respects
import PagedTable.Proofs.Tree.Invariant
import PagedTable.Proofs.Cursor.Walk
import PagedTable.Proofs.Cursor.Scan
import PagedTable.Proofs.Tree.Outline
import PagedTable.Proofs.Table.Contents
import PagedTable.Proofs.Table.Refusal
import PagedTable.Proofs.Pager.History
import PagedTable.Proofs.Tree.SplitCost
import PagedTable.Proofs.Action.Triple
import PagedTable.Proofs.Node.Within
import PagedTable.Proofs.Tree.Safe
import PagedTable.Proofs.Pager.Safe
import PagedTable.Proofs.Cursor.Safe
import PagedTable.Proofs.Table.Call
import PagedTable.Proofs.Table.Safe
import PagedTable.Proofs.Pager.Alike
import PagedTable.Proofs.Cursor.Respects
import PagedTable.Proofs.Table.Respects
import PagedTable.Proofs.Table.Sessions
import PagedTable.Proofs.Table.Durable
import PagedTable.Proofs.Pager.Flat
import PagedTable.Proofs.Table.Reconfigured
import PagedTable.Proofs.Cursor.Interleaved
import PagedTable.Proofs.PageTree.Level
import PagedTable.Proofs.PageTree.Span
import PagedTable.Proofs.Cursor.Rows
import PagedTable.Proofs.Table.Stands
import PagedTable.Proofs.Table.Shape
import PagedTable.Proofs.Row.Codec
import PagedTable.Proofs.Session.Answers
import PagedTable.Proofs.Session.Lines
import PagedTable.Proofs.Session.Transcript
import PagedTable.Proofs.Table.Rows
import PagedTable.Proofs.Session.Kept
import PagedTable.Proofs.Action.Ends
import PagedTable.Proofs.Pager.Peeked
import PagedTable.Proofs.Tree.Peeks
import PagedTable.Proofs.Cursor.Peeks
import PagedTable.Proofs.Table.Queries
import PagedTable.Proofs.Table.Capacity
import PagedTable.Proofs.Tree.Position
import PagedTable.Proofs.PageTree.Stored
import PagedTable.Proofs.PageTree.Halves
import PagedTable.Proofs.Tree.Distribution
import PagedTable.Proofs.Row.Canonical
import PagedTable.Proofs.Node.Rebuilt
import PagedTable.Proofs.Pager.Interrupted
import PagedTable.Proofs.Tree.Extent
import PagedTable.Proofs.Node.Codec
import PagedTable.Proofs.Cursor.Iteration
import PagedTable.Proofs.Table.Lookups
import PagedTable.Proofs.Pager.PageCount
import PagedTable.Proofs.Disk.PageArray
import PagedTable.Proofs.Tree.Outlined
import PagedTable.Proofs.Text.Words
import PagedTable.Proofs.Text.Decimal
import PagedTable.Proofs.Statement.Grammar
import PagedTable.Proofs.Action.Loop
import PagedTable.Proofs.Tree.Rounds
import PagedTable.Proofs.Tree.Termination
import PagedTable.Proofs.Tree.Greatest
