import HeadersControl.Chaining
import HeadersControl.Location.ArrayRequests
import HeadersControl.Location.Arrays
import HeadersControl.Location.Failures
import HeadersControl.Location.Flattened
import HeadersControl.Location.Installed
import HeadersControl.Location.Reordered
import HeadersControl.Location.Repeated
import HeadersControl.Phase.Rotation
import HeadersControl.Request.FastPath
import HeadersControl.Request.Labels
import HeadersControl.Request.LastSet
import HeadersControl.Request.NoOps
import HeadersControl.Request.Operators
import HeadersControl.Request.Subrequest
import HeadersControl.Request.Wildcard
import HeadersControl.Response.CacheControl
import HeadersControl.Response.ContentType
import HeadersControl.Response.HashMark
import HeadersControl.Response.LastSet
import HeadersControl.Response.NoOps
import HeadersControl.Response.Presence
import HeadersControl.Response.Wildcard
import HeadersControl.Rules.Diagnosis
