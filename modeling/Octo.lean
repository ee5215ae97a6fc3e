import Octo.NotResolution
import Octo.RoutineFlow
import Octo.Comparisons
import Octo.FindTable
import Octo.Limit
import Octo.OuterJoinRows
import Octo.BindBody
import Octo.Password
import Octo.MainLoop
import Octo.Replies
import Octo.PlanFiles
import Octo.XrefProgress
import Octo.BoundTokens
import Octo.VerifyStructure
import Octo.NaturalJoin
import Octo.CaseExpression
import Octo.InValueList
import Octo.BareBoolean
import Octo.RegexCondition
import Octo.LikePredicate
import Octo.CreateTableRoundTrip
import Octo.ScalarSubquery
import Octo.RoutineNames
import Octo.FixedKeys
import Octo.DeferredPlans
import Octo.KeyNumbers
import Octo.SharedOutput
import Octo.RowLines
import Octo.SocketBytes
import Octo.HexDigits
import Octo.ErrorStrings
import Octo.MemoryChunks
