import CJson.Rfc6901
import CJson.Detach
import CJson.ParseSafety
import CJson.MinifyParse
import CJson.PrintParse
import CJson.Runs
import CJson.FindPointer
import CJson.PatchMember
import CJson.PrintTrace
import CJson.PatchOwners
import CJson.Terminated
import CJson.ParseOwners
import CJson.Merge
import CJson.RoundTrip
import CJson.Agreement
import CJson.Additions
import CJson.Transparency
import CJson.Strings
import CJson.HeapSort
import CJson.Stability
import CJson.MergeRecovery
import CJson.Tokens
import CJson.Nesting
import CJson.PrintCalls
import CJson.Leaks
import CJson.Impartial
import CJson.PointerJoin
import CJson.ParseSessions
import CJson.MakeSessions
import CJson.MinifyPrint
import CJson.Reread
import CJson.NormalForm
import CJson.HeapShelves
import CJson.HeapRefinement
import CJson.HeapQueries
import CJson.HeapApart
import CJson.Removals
