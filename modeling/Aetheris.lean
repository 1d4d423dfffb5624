import Aetheris.Cache.Lz4Buffers
import Aetheris.Cache.Retrieval
import Aetheris.Dom.ListenerRuns
import Aetheris.Dom.TextApplied
import Aetheris.Gif.Interlacing
import Aetheris.Html.OpenElements
import Aetheris.Html.Positions
import Aetheris.Html.ScriptAgreement
import Aetheris.Jpeg.Codes
import Aetheris.Jpeg.IndexSafety
import Aetheris.Jpeg.ScanOrder
import Aetheris.Js.ArrayCallbacks
import Aetheris.Js.ArrayProperties
import Aetheris.Js.CompoundAssignment
import Aetheris.Js.ErrorFlag
import Aetheris.Js.JsonAcceptance
import Aetheris.Js.Jumps
import Aetheris.Js.LexerRoundTrip
import Aetheris.Js.ParserRoundTrip
import Aetheris.Js.Progress
import Aetheris.Js.PromiseObjects
import Aetheris.Js.RegexMethods
import Aetheris.Js.Settlement
import Aetheris.Layout.BlockStacking
import Aetheris.Layout.BoxConsistency
import Aetheris.Layout.Repeat
import Aetheris.Layout.Words
import Aetheris.Layout.GridPlacement
import Aetheris.Layout.UsedEdges
import Aetheris.Net.CookieJar
import Aetheris.Net.RequestText
import Aetheris.Net.ResponseMetadata
import Aetheris.Net.SecureLoader
import Aetheris.Net.Segmentation
import Aetheris.Net.UrlParts
import Aetheris.Net.WrittenUrl
import Aetheris.Paint.Executor
import Aetheris.Paint.NestedClips
import Aetheris.Paint.PaintingOrder
import Aetheris.Paint.Pens
import Aetheris.Paint.Strokes
import Aetheris.Png.InflateExact
import Aetheris.Png.Safety
import Aetheris.Session.FocusAgreement
import Aetheris.Session.FormEncoding
import Aetheris.Session.FormOwners
import Aetheris.Session.FormValues
import Aetheris.Session.Tabs
import Aetheris.Style.InlineStyle
import Aetheris.Style.SelectorExact
import Aetheris.Svg.Fill
import Aetheris.Svg.Strokes
