import RouteSearch.Network.Packed
import RouteSearch.Proofs.MinQueue
import RouteSearch.Search.Call
import RouteSearch.Settings.Reader
import RouteSearch.Settings.Writer
import RouteSearch.Settings.StrayLine
import RouteSearch.TurnTable.Meaning
import RouteSearch.Walk
import RouteSearch.Weight.Double
import RouteSearch.Weight.Exact
import RouteSearch.Proofs.Network
import RouteSearch.Proofs.Pricing
import RouteSearch.Proofs.Walk
import RouteSearch.Proofs.Branch
import RouteSearch.Proofs.Meeting
import RouteSearch.Proofs.Underway
import RouteSearch.Proofs.Advance
import RouteSearch.Proofs.Reach
import RouteSearch.Proofs.Crossing
import RouteSearch.Proofs.MeetingWalk
import RouteSearch.Proofs.Optimality
import RouteSearch.Proofs.Lineage
import RouteSearch.Proofs.Termination
import RouteSearch.Proofs.Answer
import RouteSearch.Proofs.Schedule
import RouteSearch.Search.History
import RouteSearch.Search.Chronicle
import RouteSearch.Search.Course
import RouteSearch.Search.Payload
import RouteSearch.Proofs.Calls
import RouteSearch.Proofs.Discipline
import RouteSearch.Proofs.Exploration
import RouteSearch.Proofs.LeastMeeting
import RouteSearch.Proofs.PinnedEnds
import RouteSearch.Proofs.Aside
import RouteSearch.Proofs.Likeness
import RouteSearch.Proofs.Refusals
import RouteSearch.Proofs.Stepwise
import RouteSearch.Proofs.EarlyCalls
import RouteSearch.Proofs.RootWeights
import RouteSearch.Proofs.Consistency
import RouteSearch.Proofs.Chronicle
import RouteSearch.Proofs.Assertions
import RouteSearch.Proofs.TurnRules
import RouteSearch.Proofs.ForbiddenTurns
import RouteSearch.Proofs.Repetition
import RouteSearch.Proofs.Course
import RouteSearch.Proofs.Workload
import RouteSearch.Proofs.Ending
import RouteSearch.Proofs.VisitLimit
import RouteSearch.Proofs.PriceFromEnd
import RouteSearch.Proofs.Payload
import RouteSearch.Proofs.MakerCalls
import RouteSearch.Network.EdgeCall
import RouteSearch.Network.Layout
import RouteSearch.Proofs.Views
import RouteSearch.Proofs.Layout
import RouteSearch.Proofs.EdgeCalls
import RouteSearch.SearchTree.TreeCall
import RouteSearch.Proofs.DoubleOrder
import RouteSearch.Proofs.TreeCalls
import RouteSearch.Proofs.SettingsNumbers
import RouteSearch.Proofs.SettingsText
import RouteSearch.Proofs.SettingsValues
import RouteSearch.Proofs.SettingsDocument
import RouteSearch.Proofs.SettingsForeign
import RouteSearch.Proofs.SettingsLines
import RouteSearch.Proofs.SettingsGiven
import RouteSearch.Proofs.SettingsOneLine
import RouteSearch.Proofs.SettingsWriting
