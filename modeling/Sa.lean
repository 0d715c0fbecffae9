import Sa.Accumulation
import Sa.Appending
import Sa.CStrings
import Sa.DecimalTexts
import Sa.Doubles
import Sa.Editing
import Sa.ErrorReplies
import Sa.Content
import Sa.Files
import Sa.Framing
import Sa.Occurrences
import Sa.Pairing
import Sa.Chat
import Sa.Messages
import Sa.SessionFile
import Sa.CutOff
import Sa.Turns
import Sa.ToolPairing
import Sa.Lines
import Sa.Logs
import Sa.Resume
import Sa.Clearing
import Sa.Compaction
import Sa.Http
import Sa.JsonGrammar
import Sa.JsonTexts
import Sa.NumberTexts
import Sa.Parser
import Sa.ParserGrammar
import Sa.Printer
import Sa.PrinterGrammar
import Sa.Readings
import Sa.Rewriting
import Sa.RoundTrip
import Sa.Rules
import Sa.Shell
import Sa.SseLines
import Sa.Stream
import Sa.StringDecoding
import Sa.StuckTexts
import Sa.Tinyjson
import Sa.ToolInput
import Sa.TornTexts
import Sa.Unicode
import Sa.ValidOutput
import Sa.Headers
import Sa.Unchunked
import Sa.Chunked
import Sa.Shrinking
import Sa.Healing
import Sa.ReadFile
import Sa.Paging
import Sa.RulePaths
import Sa.Skills
import Sa.LogicalLines
import Sa.Folding
import Sa.FrontMatter
import Sa.BlockScalars
import Sa.Urls
import Sa.RunShell
import Sa.SkillsBlock
import Sa.Prompts
import Sa.Cutting
import Sa.NumbersKept
import Sa.Cursor
import Sa.RuleScan
import Sa.Segments
import Sa.ChildList
import Sa.Separation
import Sa.Programs
import Sa.Nodes
import Sa.Ownership
import Sa.Containers
import Sa.JsonNodes
import Sa.NodeReading
import Sa.NodePrinter
import Sa.NodeFocus
import Sa.NodeParser
import Sa.NodeSession
import Sa.NodeStream
import Sa.ToolSchemas
import Sa.NodeTools
import Sa.Requests
import Sa.NodeRequests
import Sa.NodeChat
import Sa.Sockets
import Sa.Posting
import Sa.Receiving
import Sa.RequestTurns
import Sa.Startup
import Sa.Callbacks
import Sa.ReadBack
import Sa.Workspace
import Sa.Output
import Sa.Transcript
import Sa.Buffers
